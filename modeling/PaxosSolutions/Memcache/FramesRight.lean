import PaxosSolutions.Memcache.Frames
import Mathlib.Data.List.Induction

/-!
# Which frames are taken right

A frame is taken right if the call comes to an end, writes inside its buffers, takes the
bytes that the frame says it has, and answers nothing to a bad command that ends in
`noreply`. What has to hold of the stream for that.
-/
namespace PaxosSolutions.Memcache
open Lib

/-- All that is sent arrives. -/
def Arrives (arrived : ℕ → ℕ) (stream : List UInt8) : Prop := ∃ K, ∀ k ≥ K, stream.length ≤ arrived k

/-- The tokens are those of a store command that has its fields. -/
def StoreTokens : List (List UInt8) → Prop
  | [] => False
  | cmd :: args => (textKind cmd).hasBody = true ∧ fieldsThere (textKind cmd).fields args = true

/-- The number of bytes that a store command announces -/
def announced (tokens : List (List UInt8)) : ℕ := decimal (tokens.getD 4 [])

/-- The command of a line is one with a body. -/
def StoreLine (line : List UInt8) : Prop :=
  ∃ cmd args, strtok line = cmd :: args ∧ (textKind cmd).hasBody = true

/-- What a call of `RecvClientText` is to do -/
structure TextRight (r : Frame) : Prop where
  inside : ∀ w ∈ r.writes, w.2 ≤ w.1
  store : r.accepted = true → StoreLine r.line →
    StoreTokens (strtok r.line) ∧ r.consumed = r.line.length + announced (strtok r.line) + 2
  quiet : r.accepted = false → (strtok r.line).getLast? = some noreply → r.reply = none

/-- The body that is announced is there, and its length with the line end is an `int`. Of a
body of which nothing is there the length is to be positive as an `int`. -/
def BodyFits (tokens : List (List UInt8)) (rest : List UInt8) : Prop :=
  if rest = [] then 0 < int32 (atoll (tokens.getD 4 []) + 2)
  else announced tokens + 2 < 2 ^ 31 ∧ announced tokens + 2 ≤ rest.length

/-- Where `noreply` is looked for in a bad command that ends in it -/
def NoreplySeen (line : List UInt8) (kind : TextKind) (args : List (List UInt8)) : Prop :=
  if kind = .delete then endsNoreply line = true else kind.cNoreply args = some noreply

/-- The commands whose fields are checked -/
def TextKind.checked (kind : TextKind) : Bool := kind.fields ≠ []

/-- The fields of the command are there with its body, or `noreply` is where it is looked for. -/
def CommandFits (line rest cmd : List UInt8) (args : List (List UInt8)) : Prop :=
  if argsGood (textKind cmd).fields args = true then
    (textKind cmd).hasBody = true → BodyFits (cmd :: args) rest
  else (textKind cmd).checked = true → (cmd :: args).getLast? = some noreply →
    NoreplySeen line (textKind cmd) args

/-- The line and its body are what `RecvClientText` can take. -/
def LineFits (line rest : List UInt8) : Prop :=
  line.length < tokenBufSize ∧ ∀ cmd args, strtok line = cmd :: args → CommandFits line rest cmd args

/-- The stream has a line that `RecvClientText` can take, or it has ended. -/
def TextFits (stream : List UInt8) : Prop :=
  stream = [] ∨ 10 ∈ stream.take tokenBufSize ∧
    LineFits (stream.take ((stream.take tokenBufSize).idxOf 10 + 1))
      (stream.drop ((stream.take tokenBufSize).idxOf 10 + 1))

/-- What a call of `RecvBinaryByFd` is to do -/
structure BinaryRight (r : Frame) : Prop where
  inside : ∀ w ∈ r.writes, w.2 ≤ w.1
  body : r.accepted = true → BinHead.hExtLen ⟨r.line⟩ + BinHead.hKeyLen ⟨r.line⟩ ≤ BinHead.hBodyLen ⟨r.line⟩ ∧
    r.consumed = sizeofHead + BinHead.hBodyLen ⟨r.line⟩

/-- If the lengths of a head fit together and its three parts have come each in its first
byte, they have come whole. -/
def BinaryFits (head : BinHead) (size : ℕ) : Prop :=
  0 < size → (head.hExtLen + head.hKeyLen = 0 ∨ sizeofHead < size) →
    head.hExtLen + head.hKeyLen ≤ head.hBodyLen →
    head.hBodyLen - (head.hExtLen + head.hKeyLen) < 2 ^ 31 →
    (head.hBodyLen = head.hExtLen + head.hKeyLen ∨ sizeofHead + (head.hExtLen + head.hKeyLen) < size) →
    sizeofHead + head.hBodyLen ≤ size

/-! ### The line -/

section Lines
variable {stream line rest : List UInt8} {arrived : ℕ → ℕ} {size fuel k n : ℕ}

/-- A peek is without bytes only at the end of the stream. -/
theorem nil_of_peek {m : ℕ} (hsize : 0 < size) (h : (stream.take (max 1 m)).take size = []) :
    stream = [] := by
  simp only [List.take_eq_nil_iff] at h
  rcases h with h | h | h
  · omega
  · omega
  · exact h

/-- Once all has arrived a peek sees as much as it can. -/
theorem readCrLf_end (ha : ∀ j ≥ k, stream.length ≤ arrived j) (fuel : ℕ) :
    readCrLf stream size arrived (fuel + 1) k =
      if stream.take size = [] then some none
      else if 10 ∈ stream.take size then some (some ((stream.take size).idxOf 10 + 1))
      else readCrLf stream size arrived fuel (k + 1) := by
  have hle := ha k (Nat.le_refl k)
  have hall : stream.take (max 1 (arrived k)) = stream := List.take_of_length_le (by omega)
  rw [readCrLf, hall]

/-- A peek that sees an LF sees the first one. -/
theorem idxOf_peek {m : ℕ} (hin : (10 : UInt8) ∈ (stream.take m).take size) :
    10 ∈ stream.take size ∧ ((stream.take m).take size).idxOf 10 = (stream.take size).idxOf 10 := by
  rw [List.take_take, Nat.min_comm, ← List.take_take] at hin ⊢
  refine ⟨List.mem_of_mem_take hin, ?_⟩
  conv => rhs; rw [← List.take_append_drop m (stream.take size)]
  rw [List.idxOf_append_of_mem hin]

/-- What the peeks find is the end of the first line. -/
theorem readCrLf_found (h : readCrLf stream size arrived fuel k = some (some n)) :
    10 ∈ stream.take size ∧ n = (stream.take size).idxOf 10 + 1 := by
  induction fuel generalizing k with
  | zero => exact absurd h (by simp [readCrLf])
  | succ fuel ih =>
      rw [readCrLf] at h
      split_ifs at h with hempty hin
      · exact absurd h (by simp)
      · obtain ⟨hmem, hidx⟩ := idxOf_peek hin
        simp only [Option.some.injEq] at h
        exact ⟨hmem, by omega⟩
      · exact ih h

/-- The stream has ended if the peeks find nothing. -/
theorem readCrLf_none (hsize : 0 < size) (h : readCrLf stream size arrived fuel k = some none) :
    stream = [] := by
  induction fuel generalizing k with
  | zero => exact absurd h (by simp [readCrLf])
  | succ fuel ih =>
      rw [readCrLf] at h
      split_ifs at h with hempty hin
      · exact nil_of_peek hsize hempty
      · exact absurd h (by simp)
      · exact ih h

/-- The peeks find the line once it has arrived. -/
theorem readCrLf_finds (ha : Arrives arrived stream) (hlf : 10 ∈ stream.take size) :
    ∃ fuel, readCrLf stream size arrived fuel 0 = some (some ((stream.take size).idxOf 10 + 1)) := by
  obtain ⟨K, hK⟩ := ha
  -- by induction on the peeks that are left until all is there
  have hfrom : ∀ left k, K ≤ k + left →
      ∃ fuel, readCrLf stream size arrived fuel k = some (some ((stream.take size).idxOf 10 + 1)) := by
    intro left
    induction left with
    | zero =>
        intro k hk
        refine ⟨1, ?_⟩
        rw [readCrLf_end (fun j hj => hK j (by omega)), if_neg (List.ne_nil_of_mem hlf), if_pos hlf]
    | succ left ih =>
        intro k hk
        obtain ⟨fuel, hfuel⟩ := ih (k + 1) (by omega)
        refine ⟨fuel + 1, ?_⟩
        rw [readCrLf]
        split_ifs with hempty hin
        · have hsize : 0 < size := Nat.pos_of_ne_zero fun h0 => absurd hlf (by simp [h0])
          exact absurd hlf (by simp [nil_of_peek hsize hempty])
        · rw [(idxOf_peek hin).2]
        · exact hfuel
  exact hfrom K 0 (by omega)

end Lines

/-! ### The command -/

section Commands
variable {line rest cmd : List UInt8} {args : List (List UInt8)} {kind : TextKind}

@[simp] theorem refused_accepted (reply : Option Reply) : (refused line reply).accepted = false := rfl

@[simp] theorem refused_reply (reply : Option Reply) : (refused line reply).reply = reply := rfl

theorem recvBody_eq (frame : Frame) (cBytes : List UInt8) :
    recvBody frame cBytes rest =
      if 0 < int32 (atoll cBytes + 2) ∧ rest = [] then { frame with accepted := false, noreply := false }
      else { frame with
        data := rest.take (int32 (atoll cBytes + 2)).toNat
        consumed := frame.consumed + (rest.take (int32 (atoll cBytes + 2)).toNat).length
        writes := frame.writes ++ [((int32 (atoll cBytes + 2) % 2 ^ 64).toNat,
          (rest.take (int32 (atoll cBytes + 2)).toNat).length)] } := rfl

theorem recvBody_line (frame : Frame) (cBytes : List UInt8) :
    (recvBody frame cBytes rest).line = frame.line := by
  rw [recvBody_eq]
  split_ifs <;> rfl

theorem recvBody_reply (rest : List UInt8) (frame : Frame) (cBytes : List UInt8) :
    (recvBody frame cBytes rest).reply = frame.reply := by
  rw [recvBody_eq]
  split_ifs <;> rfl

/-- A body is never longer than its buffer. -/
theorem recvBody_writes (frame : Frame) (cBytes : List UInt8) :
    ∃ more, (recvBody frame cBytes rest).writes = frame.writes ++ more ∧ ∀ w ∈ more, w.2 ≤ w.1 := by
  rw [recvBody_eq]
  split_ifs with hend
  · exact ⟨[], by simp, by simp⟩
  · refine ⟨_, rfl, ?_⟩
    intro w hw
    obtain rfl := List.mem_singleton.mp hw
    have hlen := int32_lt (atoll cBytes + 2)
    simp only [List.length_take]
    omega

/-- The body is taken as it is announced if it fits, and only then. -/
theorem recvBody_right (rest : List UInt8) (frame : Frame) (tokens : List (List UInt8))
    (hacc : frame.accepted = true) :
    ((recvBody frame (tokens.getD 4 []) rest).accepted = true →
      (recvBody frame (tokens.getD 4 []) rest).consumed = frame.consumed + announced tokens + 2) ↔
      BodyFits tokens rest := by
  have hlen := int32_lt (atoll (tokens.getD 4 []) + 2)
  have hfit : announced tokens + 2 < 2 ^ 31 →
      int32 (atoll (tokens.getD 4 []) + 2) = announced tokens + 2 := by
    intro hlt
    have hmin : atoll (tokens.getD 4 []) = announced tokens := by
      unfold atoll
      rw [announced] at hlt ⊢
      omega
    rw [hmin]
    exact int32_of_range (by omega) (by omega)
  rw [recvBody_eq, BodyFits]
  by_cases hend : rest = []
  · by_cases hpos : 0 < int32 (atoll (tokens.getD 4 []) + 2)
    · simp only [hend, hpos, and_true, if_true, iff_true]
      intro habs
      exact absurd habs Bool.false_ne_true
    · simp only [hend, hpos, false_and, if_false, hacc, true_implies, if_true, List.take_nil,
        List.length_nil, iff_false]
      omega
  · simp only [hend, and_false, if_false, hacc, true_implies, List.length_take]
    constructor
    · intro hsum
      have hleft := Nat.min_le_left (int32 (atoll (tokens.getD 4 []) + 2)).toNat rest.length
      have hright := Nat.min_le_right (int32 (atoll (tokens.getD 4 []) + 2)).toNat rest.length
      omega
    · rintro ⟨hlt, hle⟩
      have := hfit hlt
      omega

/-- What a command without its fields is answered, if it ends in `noreply` -/
theorem badReply_none (hk : kind.checked = true) :
    badReply kind line args = none ↔ NoreplySeen line kind args := by
  cases kind <;> simp [badReply, NoreplySeen, TextKind.checked, TextKind.fields] at hk ⊢ <;>
    split_ifs <;> simp_all

theorem clientCommand_checked (hk : kind.checked = true) :
    clientCommand line rest args kind =
      if argsGood kind.fields args = false then refused line (badReply kind line args)
      else if kind.hasBody then
        recvBody { lineFrame line with noreply := (kind.cNoreply args).isSome } (args.getD 3 []) rest
      else { lineFrame line with noreply := (kind.cNoreply args).isSome } := by
  cases kind <;> first | rfl | exact absurd hk (by decide)

/-- A command without fields has no body, and is refused only alone. -/
theorem clientCommand_free (line rest : List UInt8) (args : List (List UInt8)) (hk : kind.checked = false) :
    kind.hasBody = false ∧ ((clientCommand line rest args kind).accepted = true ∨
      kind = .get ∧ args = []) := by
  cases kind <;> first | exact absurd hk (by decide) | skip
  · by_cases hargs : args = [] <;> simp [clientCommand, hargs, TextKind.hasBody, lineFrame]
  · exact ⟨rfl, Or.inl rfl⟩
  · exact ⟨rfl, Or.inl rfl⟩

/-- What is written for a command besides its line is inside. -/
theorem clientCommand_writes (line rest : List UInt8) (args : List (List UInt8)) (kind : TextKind) :
    (clientCommand line rest args kind).line = line ∧
      ∃ more, (clientCommand line rest args kind).writes = (lineFrame line).writes ++ more ∧
        ∀ w ∈ more, w.2 ≤ w.1 := by
  have hnil : ∃ more, (lineFrame line).writes = (lineFrame line).writes ++ more ∧ ∀ w ∈ more, w.2 ≤ w.1 :=
    ⟨[], by simp, by simp⟩
  by_cases hk : kind.checked = true
  · rw [clientCommand_checked hk]
    split_ifs with hgood hbody
    · exact ⟨rfl, hnil⟩
    · exact ⟨recvBody_line _ _, recvBody_writes _ _⟩
    · exact ⟨rfl, hnil⟩
  · cases kind <;> first | exact absurd rfl hk | skip
    · unfold clientCommand
      split_ifs <;> exact ⟨rfl, hnil⟩
    · exact ⟨rfl, hnil⟩
    · exact ⟨rfl, hnil⟩

/-- The buffers of a command are kept to if the line leaves room for its NUL. -/
theorem clientCommand_inside (kind : TextKind) :
    (∀ w ∈ (clientCommand line rest args kind).writes, w.2 ≤ w.1) ↔ line.length < tokenBufSize := by
  obtain ⟨-, more, hwrites, hmore⟩ := clientCommand_writes line rest args kind
  rw [hwrites]
  simp only [lineFrame, List.forall_mem_append, List.forall_mem_cons]
  constructor
  · rintro ⟨⟨hle, -⟩, -⟩
    exact hle
  · intro hlt
    exact ⟨⟨hlt, Nat.le_refl _, hlt, by simp⟩, hmore⟩

/-- A command is taken right if its line leaves room and its fields and its body fit. -/
theorem clientCommand_right (htok : strtok line = cmd :: args) :
    TextRight (clientCommand line rest args (textKind cmd)) ↔
      line.length < tokenBufSize ∧ CommandFits line rest cmd args := by
  have hline := (clientCommand_writes line rest args (textKind cmd)).1
  have hstore : StoreLine line ↔ (textKind cmd).hasBody = true := by
    unfold StoreLine
    constructor
    · rintro ⟨cmd', args', htok', hbody⟩
      rw [htok] at htok'
      obtain ⟨rfl, -⟩ := List.cons.inj htok'
      exact hbody
    · intro hbody
      exact ⟨cmd, args, htok, hbody⟩
  -- what is left of the two promises about the command
  have hsplit : TextRight (clientCommand line rest args (textKind cmd)) ↔
      line.length < tokenBufSize ∧
      ((clientCommand line rest args (textKind cmd)).accepted = true → (textKind cmd).hasBody = true →
        fieldsThere (textKind cmd).fields args = true ∧
        (clientCommand line rest args (textKind cmd)).consumed = line.length + announced (cmd :: args) + 2) ∧
      ((clientCommand line rest args (textKind cmd)).accepted = false →
        (cmd :: args).getLast? = some noreply →
          (clientCommand line rest args (textKind cmd)).reply = none) := by
    constructor
    · intro hr
      refine ⟨(clientCommand_inside _).mp hr.inside, ?_, ?_⟩
      · intro hacc hbody
        have hdone := hr.store hacc (by rw [hline]; exact hstore.mpr hbody)
        rw [hline, htok] at hdone
        exact ⟨hdone.1.2, hdone.2⟩
      · intro hacc hlast
        exact hr.quiet hacc (by rw [hline, htok]; exact hlast)
    · rintro ⟨hlt, hs, hq⟩
      refine ⟨(clientCommand_inside _).mpr hlt, ?_, ?_⟩
      · intro hacc hbody
        rw [hline] at hbody ⊢
        rw [htok]
        obtain ⟨hthere, hcons⟩ := hs hacc (hstore.mp hbody)
        exact ⟨⟨hstore.mp hbody, hthere⟩, hcons⟩
      · intro hacc hlast
        rw [hline, htok] at hlast
        exact hq hacc hlast
  rw [hsplit]
  refine and_congr_right fun _ => ?_
  unfold CommandFits
  by_cases hk : (textKind cmd).checked = true
  · rw [clientCommand_checked hk]
    by_cases hgood : argsGood (textKind cmd).fields args = true
    · have hthere : fieldsThere (textKind cmd).fields args = true := (Bool.and_eq_true_iff.mp hgood).1
      rw [if_neg (by simp [hgood]), if_pos hgood]
      by_cases hbody : (textKind cmd).hasBody = true
      · have hright := recvBody_right rest
          { lineFrame line with noreply := ((textKind cmd).cNoreply args).isSome } (cmd :: args) rfl
        have hquiet := recvBody_reply rest
          { lineFrame line with noreply := ((textKind cmd).cNoreply args).isSome } (args.getD 3 [])
        rw [if_pos hbody, ← hright]
        simp only [hbody, hthere, true_and, true_implies, hquiet]
        exact and_iff_left fun _ _ => rfl
      · simp [hbody, lineFrame]
    · rw [if_pos (by simpa using hgood), if_neg hgood]
      simp [hk, badReply_none hk]
  · -- such a command has no body, and is refused only without arguments
    have hfree : (textKind cmd).checked = false := by simpa using hk
    obtain ⟨hbody, hacc⟩ := clientCommand_free line rest args hfree
    have hfits : (if argsGood (textKind cmd).fields args = true then
        (textKind cmd).hasBody = true → BodyFits (cmd :: args) rest
      else (textKind cmd).checked = true → (cmd :: args).getLast? = some noreply →
        NoreplySeen line (textKind cmd) args) := by
      split_ifs <;> simp [hbody, hfree]
    refine iff_of_true ⟨by simp [hbody], ?_⟩ hfits
    intro hrej hlast
    rcases hacc with hacc | ⟨hget, rfl⟩
    · exact absurd (hrej.symm.trans hacc) Bool.false_ne_true
    · obtain rfl : cmd = noreply := by simpa using hlast
      exact absurd hget (by decide)

end Commands

/-- What has to hold of a line and of what comes behind it -/
theorem clientText_right (line rest : List UInt8) :
    TextRight (clientText line rest) ↔ LineFits line rest := by
  cases htok : strtok line with
  | nil =>
      have hrej : clientText line rest = refused line (some (.clientError "bad command line format")) := by
        rw [clientText, htok]
      rw [hrej]
      constructor
      · intro hr
        exact ⟨hr.inside (tokenBufSize, line.length + 1) (List.mem_cons_self ..), by simp [htok]⟩
      · rintro ⟨hlt, -⟩
        refine ⟨?_, fun hacc => absurd hacc Bool.false_ne_true, fun _ hlast => ?_⟩
        · simpa [refused, lineFrame] using hlt
        · simp [refused, lineFrame, htok] at hlast
  | cons cmd args =>
      have hcmd : clientText line rest = clientCommand line rest args (textKind cmd) := by
        rw [clientText, htok]
      rw [hcmd, clientCommand_right htok, LineFits, htok]
      refine and_congr_right fun _ => ?_
      constructor
      · intro hfits cmd' args' heq
        obtain ⟨rfl, rfl⟩ := List.cons.inj heq
        exact hfits
      · intro hall
        exact hall cmd args rfl

/-- `RecvClientText` takes its line right if the line is in the buffer and fits. -/
theorem recvClientText_right {arrived : ℕ → ℕ} {stream : List UInt8} (ha : Arrives arrived stream) :
    (∃ fuel r, RecvClientText arrived fuel stream = some r ∧ TextRight r) ↔ TextFits stream := by
  constructor
  · rintro ⟨fuel, r, hrun, hr⟩
    unfold RecvClientText at hrun
    cases hread : readCrLf stream tokenBufSize arrived fuel 0 with
    | none => simp [hread] at hrun
    | some found =>
        cases found with
        | none => exact Or.inl (readCrLf_none (by decide) hread)
        | some n =>
            obtain ⟨hlf, rfl⟩ := readCrLf_found hread
            simp only [hread, Option.map_some, Option.some.injEq] at hrun
            rw [← hrun] at hr
            exact Or.inr ⟨hlf, (clientText_right _ _).mp hr⟩
  · rintro (rfl | ⟨hlf, hfits⟩)
    · refine ⟨1, { accepted := false, consumed := 0 }, by simp [RecvClientText, readCrLf], by simp, ?_, ?_⟩
      · intro hacc
        exact absurd hacc Bool.false_ne_true
      · intro hacc hlast
        rfl
    · obtain ⟨fuel, hfuel⟩ := readCrLf_finds ha hlf
      exact ⟨fuel, _, by rw [RecvClientText, hfuel]; rfl, (clientText_right _ _).mpr hfits⟩

/-! ### Binary frames -/

section Binary
variable {head : BinHead}

theorem beNat_lt (bs : List UInt8) : beNat bs < 256 ^ bs.length := by
  induction bs using List.reverseRecOn with
  | nil => exact Nat.one_pos
  | append_singleton bs b ih =>
      have hb := b.toNat_lt
      rw [List.length_append, List.length_singleton, Nat.pow_succ]
      simp only [beNat, List.foldl_append, List.foldl_cons, List.foldl_nil] at ih ⊢
      omega

/-- A number of `k` bytes out of a head -/
theorem field_lt (i k : ℕ) : beNat ((head.bytes.drop i).take k) < 256 ^ k :=
  lt_of_lt_of_le (beNat_lt _) (Nat.pow_le_pow_right (by omega) (List.length_take_le ..))

/-- The length of the value is an `int`, and negative if the head has less than its parts. -/
theorem valueLen_nonneg (head : BinHead) : 0 ≤ int32 (int32 head.hBodyLen - head.hExtLen - head.hKeyLen) ↔
    head.hExtLen + head.hKeyLen ≤ head.hBodyLen ∧ head.hBodyLen - (head.hExtLen + head.hKeyLen) < 2 ^ 31 := by
  have hkey : head.hKeyLen < 256 ^ 2 := field_lt 2 2
  have hext : head.hExtLen < 256 ^ 1 := field_lt 4 1
  have hbody : head.hBodyLen < 256 ^ 4 := field_lt 8 4
  obtain ⟨q, hq, hlo, hhi⟩ := int32_spec head.hBodyLen
  obtain ⟨q', hq', hlo', hhi'⟩ := int32_spec (int32 head.hBodyLen - head.hExtLen - head.hKeyLen)
  omega

theorem valueLen_eq (head : BinHead) (h : 0 ≤ int32 (int32 head.hBodyLen - head.hExtLen - head.hKeyLen)) :
    (int32 (int32 head.hBodyLen - head.hExtLen - head.hKeyLen)).toNat =
      head.hBodyLen - (head.hExtLen + head.hKeyLen) := by
  have hkey : head.hKeyLen < 256 ^ 2 := field_lt 2 2
  have hext : head.hExtLen < 256 ^ 1 := field_lt 4 1
  have hbody : head.hBodyLen < 256 ^ 4 := field_lt 8 4
  obtain ⟨q, hq, hlo, hhi⟩ := int32_spec head.hBodyLen
  obtain ⟨q', hq', hlo', hhi'⟩ := int32_spec (int32 head.hBodyLen - head.hExtLen - head.hKeyLen)
  omega

/-- When a binary frame is taken, and how many bytes are taken with it -/
theorem recvBinary_accepted (junk stream : List UInt8) :
    (RecvBinaryByFd junk stream).accepted = true ↔
      stream ≠ [] ∧
      ((recvHead junk stream).hExtLen + (recvHead junk stream).hKeyLen = 0 ∨ sizeofHead < stream.length) ∧
      ((recvHead junk stream).hExtLen + (recvHead junk stream).hKeyLen ≤ (recvHead junk stream).hBodyLen ∧
        (recvHead junk stream).hBodyLen -
          ((recvHead junk stream).hExtLen + (recvHead junk stream).hKeyLen) < 2 ^ 31) ∧
      ((recvHead junk stream).hBodyLen = (recvHead junk stream).hExtLen + (recvHead junk stream).hKeyLen ∨
        sizeofHead + ((recvHead junk stream).hExtLen + (recvHead junk stream).hKeyLen) < stream.length) := by
  rw [← valueLen_nonneg]
  have hrest : stream.drop sizeofHead = [] ↔ stream.length ≤ sizeofHead := List.drop_eq_nil_iff
  have hvalue : (stream.drop sizeofHead).drop
        ((recvHead junk stream).hExtLen + (recvHead junk stream).hKeyLen) = [] ↔
      stream.length ≤ sizeofHead + ((recvHead junk stream).hExtLen + (recvHead junk stream).hKeyLen) := by
    rw [List.drop_drop, List.drop_eq_nil_iff]
  have hlen := valueLen_eq (recvHead junk stream)
  have hfits := (valueLen_nonneg (recvHead junk stream)).mp
  by_cases hne : stream = []
  · simp [RecvBinaryByFd, hne]
  · unfold RecvBinaryByFd
    simp only [hne, if_false, hrest, hvalue, ne_eq, not_false_eq_true, true_and]
    split_ifs <;> simp only [false_iff, true_iff] <;> omega

theorem recvBinary_taken (junk stream : List UInt8) (hacc : (RecvBinaryByFd junk stream).accepted = true) :
    (RecvBinaryByFd junk stream).consumed =
      min stream.length (sizeofHead + (recvHead junk stream).hBodyLen) := by
  obtain ⟨hne, -, hfits, -⟩ := (recvBinary_accepted junk stream).mp hacc
  have hlen := valueLen_eq _ ((valueLen_nonneg _).mpr hfits)
  unfold RecvBinaryByFd at hacc ⊢
  rw [if_neg hne] at hacc ⊢
  simp only at hacc ⊢
  split_ifs at hacc ⊢ with htag hkey hneg hvalue
  · simp only [List.length_take, List.length_drop]
    omega
  · simp only [List.length_take, List.length_drop]
    omega

/-- The parts of a binary frame are never longer than their buffers. -/
theorem recvBinary_inside (junk stream : List UInt8) :
    ∀ w ∈ (RecvBinaryByFd junk stream).writes, w.2 ≤ w.1 := by
  have hhead : (stream.take sizeofHead).length ≤ sizeofHead := List.length_take_le ..
  have htag := List.length_take_le ((recvHead junk stream).hExtLen + (recvHead junk stream).hKeyLen)
    (stream.drop sizeofHead)
  unfold RecvBinaryByFd
  simp only
  split_ifs <;> simp only [List.forall_mem_append, List.forall_mem_cons, List.length_take] at * <;>
    simp <;> omega

theorem recvBinary_line (junk stream : List UInt8) (hne : stream ≠ []) :
    (RecvBinaryByFd junk stream).line = (recvHead junk stream).bytes := by
  unfold RecvBinaryByFd
  rw [if_neg hne]
  simp only
  split_ifs <;> rfl

/-- `RecvBinaryByFd` takes its frame right if what its head announces has come. -/
theorem recvBinary_right (junk stream : List UInt8) :
    BinaryRight (RecvBinaryByFd junk stream) ↔ BinaryFits (recvHead junk stream) stream.length := by
  constructor
  · intro hr hpos htag hle hlt hvalue
    have hne : stream ≠ [] := List.ne_nil_of_length_pos hpos
    have hacc := (recvBinary_accepted junk stream).mpr ⟨hne, htag, ⟨hle, hlt⟩, hvalue⟩
    have hbody := (hr.body hacc).2
    rw [recvBinary_taken junk stream hacc, recvBinary_line junk stream hne] at hbody
    have hmin := Nat.min_le_left stream.length (sizeofHead + (recvHead junk stream).hBodyLen)
    exact hbody ▸ hmin
  · intro hfits
    refine ⟨recvBinary_inside junk stream, ?_⟩
    intro hacc
    obtain ⟨hne, htag, ⟨hle, hlt⟩, hvalue⟩ := (recvBinary_accepted junk stream).mp hacc
    have hcome := hfits (List.length_pos_of_ne_nil hne) htag hle hlt hvalue
    rw [recvBinary_taken junk stream hacc, recvBinary_line junk stream hne]
    exact ⟨hle, Nat.min_eq_right hcome⟩

end Binary

/-- A text frame and a binary frame are taken right if what they announce has come within
the bounds of the line buffer and of an `int`, and a `noreply` stands where it is looked for. -/
theorem clientFrames_right_iff (arrived : ℕ → ℕ) (junk stream : List UInt8) (ha : Arrives arrived stream) :
    ((∃ fuel r, RecvClientText arrived fuel stream = some r ∧ TextRight r) ↔ TextFits stream) ∧
      (BinaryRight (RecvBinaryByFd junk stream) ↔ BinaryFits (recvHead junk stream) stream.length) :=
  ⟨recvClientText_right ha, recvBinary_right junk stream⟩

/-- `set k 0 0 1` with the body `x` -/
def setLine : List UInt8 :=
  ascii ['s', 'e', 't', ' ', 'k', ' ', '0', ' ', '0', ' ', '1'] ++ [13, 10] ++ ascii ['x'] ++ [13, 10]

theorem clientFrames_right_set :
    (∃ fuel r, RecvClientText (fun _ => 16) fuel setLine = some r ∧ TextRight r) ∧
      (BinaryRight (RecvBinaryByFd [] []) ↔ BinaryFits (recvHead [] []) 0) := by
  have hrest : TextFits setLine := by
    refine Or.inr ⟨by decide, by decide, ?_⟩
    intro cmd args htok
    have htokens : strtok (setLine.take ((setLine.take tokenBufSize).idxOf 10 + 1)) =
        [ascii ['s', 'e', 't'], ascii ['k'], ascii ['0'], ascii ['0'], ascii ['1']] := by decide
    obtain ⟨rfl, rfl⟩ := List.cons.inj (htokens.symm.trans htok)
    rw [CommandFits, if_pos (by decide)]
    intro hbody
    rw [BodyFits, if_neg (by decide)]
    decide
  exact ⟨(clientFrames_right_iff (fun _ => 16) [] setLine ⟨0, fun _ _ => Nat.le_refl 16⟩).1.mpr hrest,
    (clientFrames_right_iff (fun _ => 16) [] [] ⟨0, fun _ _ => Nat.zero_le 16⟩).2⟩

/-- `set k x noreply`, without its last fields -/
def badSetLine : List UInt8 :=
  ascii ['s', 'e', 't', ' ', 'k', ' ', 'x', ' '] ++ noreply ++ [13, 10]

/-- A bad command that ends in `noreply` is answered. -/
theorem clientFrames_answered :
    ¬∃ fuel r, RecvClientText (fun _ => 17) fuel badSetLine = some r ∧ TextRight r := by
  rintro ⟨fuel, r, hrun, hr⟩
  cases fuel with
  | zero => exact absurd hrun.symm (Option.some_ne_none r)
  | succ fuel =>
      have hread : readCrLf badSetLine tokenBufSize (fun _ => 17) (fuel + 1) 0 = some (some 17) := by
        rw [readCrLf, if_neg (by decide), if_pos (by decide)]
        decide
      have hclient : RecvClientText (fun _ => 17) (fuel + 1) badSetLine =
          some (clientText badSetLine []) := by
        rw [RecvClientText, hread]
        rfl
      obtain rfl := Option.some.inj (hclient.symm.trans hrun)
      exact absurd (hr.quiet (by decide) (by decide)) (by decide)

end PaxosSolutions.Memcache
