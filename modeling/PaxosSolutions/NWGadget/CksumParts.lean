import PaxosSolutions.NWGadget.CksumMsg
import PaxosSolutions.NWGadget.Msg

/-!
# Checksums of parts

However a stream of bytes is cut into messages and these into vectors, the sums of the
vectors add up to the sum of the stream, as long as each begins where in a word the one
before it ended. A part that is replaced may be anywhere in a word as well.
-/
namespace PaxosSolutions.NWGadget

/-- The bytes from `v_pStart` on. -/
def MsgVec.bytes (v : MsgVec) : List UInt8 :=
  (List.range v.vLen).map fun i => v.vVoid.getD (v.vStart + i) 0

/-- The loop of `MsgCksum64`, with the sum and where in a word the next vector begins. -/
def cksumVecs : List MsgVec → UInt64 → ℕ → UInt64 × ℕ
  | [], sum64, r => (sum64, r)
  | v :: vs, sum64, r =>
      if v.disabled then cksumVecs vs sum64 r
      else cksumVecs vs (sumCarry sum64 (inSum64 v.bytes r)) ((v.vLen + r) % 8)

/-- `MsgCksum64` of `n` vectors, of all if it is not positive. `pR` may be `NULL`. -/
def Msg.cksum64 (m : Msg) (start : ℕ) (n : ℤ) (pR : Option ℕ) : UInt64 × Option ℕ :=
  let n := if n ≤ 0 then m.mAVec.length else n.toNat
  let (sum64, r) := cksumVecs ((m.mAVec.drop start).take n) 0 (pR.getD 0)
  (~~~sum64, pR.map fun _ => r)

/-- The loop of `_PaxosAcceptRelease` over the messages of a reply. -/
def releaseSum : List Msg → UInt64 → ℕ → UInt64
  | [], sum64, _ => sum64
  | m :: ms, sum64, res =>
      let (cksum64, pR) := m.cksum64 0 0 (some res)
      releaseSum ms (sumCarry sum64 (~~~cksum64)) (pR.getD res)

/-- `h_Cksum64` of `_PaxosAcceptRelease` -/
def releaseCksum (ms : List Msg) : UInt64 := ~~~releaseSum ms 0 0

/-- What is sent of a message. -/
def Msg.stream (m : Msg) : List UInt8 := (m.mAVec.filter fun v => !v.disabled).flatMap MsgVec.bytes

variable {r n : ℕ} {sum64 s t : UInt64} {bs : List UInt8}

theorem MsgVec.bytes_length (v : MsgVec) : v.bytes.length = v.vLen := by
  rw [MsgVec.bytes, List.length_map, List.length_range]

/-! ### Cut into vectors and messages -/

theorem cksumVecs_sumsTo (vs : List MsgVec) (hr : r < 8) (h : SumsTo sum64 n) :
    SumsTo (cksumVecs vs sum64 r).1
        (n + byteSum r ((vs.filter fun v => !v.disabled).flatMap MsgVec.bytes)) ∧
      (cksumVecs vs sum64 r).2 =
        (r + ((vs.filter fun v => !v.disabled).flatMap MsgVec.bytes).length) % 8 := by
  induction vs generalizing r n sum64 with
  | nil => exact ⟨h, (Nat.mod_eq_of_lt hr).symm⟩
  | cons v vs ih =>
      unfold cksumVecs
      cases hv : v.disabled with
      | true =>
          rw [if_pos rfl, List.filter_cons_of_neg (by simp [hv])]
          exact ih hr h
      | false =>
          rw [if_neg Bool.false_ne_true, List.filter_cons_of_pos (by simp [hv]), List.flatMap_cons]
          have hv : SumsTo (inSum64 v.bytes r) (byteSum r v.bytes) := inSum64_sumsTo hr
          obtain ⟨hsum, hres⟩ := ih (Nat.mod_lt (v.vLen + r) (by omega)) (h.add hv)
          constructor
          · rw [byteSum_append, v.bytes_length, Nat.add_comm r, ← byteSum_mod (v.vLen + r),
              ← Nat.add_assoc]
            exact hsum
          · rw [hres, List.length_append, v.bytes_length]
            omega

theorem Msg.cksum64_sumsTo (m : Msg) (pR : Option ℕ) (hr : pR.getD 0 < 8) :
    SumsTo (~~~(m.cksum64 0 0 pR).1) (byteSum (pR.getD 0) m.stream) ∧
      (m.cksum64 0 0 pR).2 = pR.map fun r => (r + m.stream.length) % 8 := by
  have hall : (m.mAVec.drop 0).take m.mAVec.length = m.mAVec := List.take_length
  have h0 : SumsTo 0 0 := ⟨rfl, by simp⟩
  obtain ⟨hsum, hres⟩ := cksumVecs_sumsTo m.mAVec hr h0
  unfold Msg.cksum64
  simp only [le_refl, if_true, hall]
  constructor
  · rw [UInt64.not_not, ← Nat.zero_add (byteSum _ _)]
    exact hsum
  · cases pR with
    | none => rfl
    | some r => exact congrArg some hres

theorem releaseSum_sumsTo (ms : List Msg) (hr : r < 8) (h : SumsTo sum64 n) :
    SumsTo (releaseSum ms sum64 r) (n + byteSum r (ms.flatMap Msg.stream)) := by
  induction ms generalizing r n sum64 with
  | nil => exact h
  | cons m ms ih =>
      obtain ⟨hsum, hres⟩ := m.cksum64_sumsTo (some r) hr
      have hnext := ih (Nat.mod_lt (r + m.stream.length) (by omega)) (h.add hsum)
      rw [byteSum_mod, Nat.add_assoc, Option.getD_some, ← byteSum_append] at hnext
      unfold releaseSum
      rw [List.flatMap_cons]
      simp only [hres, Option.map_some, Option.getD_some]
      exact hnext

/-- The checksum of a message is that of its stream, and the checksums of messages that
are added with the carry make up the one of all their bytes. -/
theorem msgCksum64_stream (m : Msg) (pR : Option ℕ) (hr : pR.getD 0 < 8) (ms : List Msg) :
    m.cksum64 0 0 pR =
        (inCksum64 m.stream (pR.getD 0), pR.map fun r => (r + m.stream.length) % 8) ∧
      releaseCksum ms = inCksum64 (ms.flatMap Msg.stream) 0 := by
  constructor
  · obtain ⟨hsum, hres⟩ := m.cksum64_sumsTo pR hr
    refine Prod.ext ?_ hres
    have hone := hsum.unique (inSum64_sumsTo hr)
    unfold inCksum64
    rw [← hone, UInt64.not_not]
  · have h0 : SumsTo 0 0 := ⟨rfl, by simp⟩
    have hsum := releaseSum_sumsTo ms (r := 0) (by omega) h0
    rw [Nat.zero_add] at hsum
    unfold releaseCksum inCksum64
    rw [hsum.unique (inSum64_sumsTo (by omega))]

/-- Three vectors, of which one is not sent and the others do not end with a word. -/
theorem msgCksum64_stream_cut :
    let m : Msg := ⟨3, [⟨true, false, [0, 1, 2, 3], 1, 3⟩, ⟨true, true, [9], 0, 1⟩,
      ⟨false, false, [4, 5, 6, 7, 8], 0, 5⟩]⟩
    m.cksum64 0 0 (some 6) = (inCksum64 [1, 2, 3, 4, 5, 6, 7, 8] 6, some 6) ∧
      releaseCksum [m, m] = inCksum64 [1, 2, 3, 4, 5, 6, 7, 8, 1, 2, 3, 4, 5, 6, 7, 8] 0 :=
  msgCksum64_stream ⟨3, [⟨true, false, [0, 1, 2, 3], 1, 3⟩, ⟨true, true, [9], 0, 1⟩,
    ⟨false, false, [4, 5, 6, 7, 8], 0, 5⟩]⟩ (some 6) (by decide) _

/-! ### A part is replaced -/

theorem byteSum_eq_zero_iff {p : ℕ} : byteSum p bs = 0 ↔ ∀ b ∈ bs, b = 0 := by
  induction bs generalizing p with
  | nil => simp [byteSum]
  | cons b bs ih =>
      have hpow : 256 ^ (p % 8) ≠ 0 := by positivity
      rw [byteSum, Nat.add_eq_zero_iff, ih, Nat.mul_eq_zero, List.forall_mem_cons,
        or_iff_left hpow]
      have hb : b.toNat = 0 ↔ b = 0 := by
        rw [← UInt8.toNat_inj]
        rfl
      rw [hb]

/-- The complement of a part's sum takes the part away. Nothing but a sum of zeros is
zero afterwards. -/
theorem SumsTo.exchange {m a b new : ℕ} {x y : UInt64} (hs : SumsTo s m) (hx : SumsTo x a)
    (hy : SumsTo y b) (hle : a ≤ m) (hnew : new + a = m + b) (hne : new ≠ 0) :
    SumsTo (sumCarry (sumCarry s (~~~x)) y) new where
  modEq := by
    have hmid := sumCarry_modEq s (~~~x)
    have hend := sumCarry_modEq (sumCarry s (~~~x)) y
    apply Nat.ModEq.add_right_cancel' x.toNat
    have hcompl : (~~~x).toNat + x.toNat = sumMod := by
      rw [complement_toNat]
      exact Nat.sub_add_cancel (sum_le x)
    calc (sumCarry (sumCarry s (~~~x)) y).toNat + x.toNat
        ≡ s.toNat + (~~~x).toNat + y.toNat + x.toNat [MOD sumMod] :=
          (hend.trans (hmid.add_right _)).add_right _
      _ = s.toNat + y.toNat + sumMod := by omega
      _ ≡ s.toNat + y.toNat [MOD sumMod] := Nat.add_modEq_right
      _ ≡ m + b [MOD sumMod] := hs.modEq.add hy.modEq
      _ = new + a := hnew.symm
      _ ≡ new + x.toNat [MOD sumMod] := hx.modEq.symm.add_left _
  zero := by
    refine iff_of_false ?_ hne
    intro hzero
    obtain ⟨hmid, -⟩ := sumCarry_eq_zero_iff.mp hzero
    obtain ⟨hs₀, hx₀⟩ := sumCarry_eq_zero_iff.mp hmid
    have ha : a = 0 := by
      have := hs.zero.mp hs₀
      omega
    rw [complement_toNat, hx.zero.mpr ha] at hx₀
    cases hx₀

/-- In what is left besides zeros a part at any place is replaced with its checksum, and
with the checksums of what it was and is. -/
theorem inCksum64_replace (M np : List UInt8) (o : ℕ) (ho : o + np.length ≤ M.length)
    (hne : ∃ b ∈ M.take o ++ np ++ M.drop (o + np.length), b ≠ 0) :
    let op := (M.drop o).take np.length
    let M' := M.take o ++ np ++ M.drop (o + np.length)
    inCksum64Update (inCksum64 M 0) op (o % 8) np (o % 8) = inCksum64 M' 0 ∧
      inCksum64SubAdd (inCksum64 M 0) (inCksum64 op (o % 8)) (inCksum64 np (o % 8)) =
        inCksum64 M' 0 := by
  intro op M'
  have hM : M = M.take o ++ op ++ M.drop (o + np.length) := by
    rw [← List.drop_drop, List.append_assoc, List.take_append_drop, List.take_append_drop]
  have hop : op.length = np.length := by
    rw [List.length_take, List.length_drop]
    omega
  have htake : (M.take o).length = o := List.length_take_of_le (by omega)
  have hsplit (q : List UInt8) (hq : q.length = np.length) :
      byteSum 0 (M.take o ++ q ++ M.drop (o + np.length)) = byteSum 0 (M.take o) +
        byteSum (o % 8) q + byteSum (o + np.length) (M.drop (o + np.length)) := by
    rw [byteSum_append, byteSum_append, List.length_append, htake, Nat.zero_add, Nat.zero_add, hq,
      byteSum_mod]
  have hold : byteSum 0 M = _ := (congrArg (byteSum 0) hM).trans (hsplit op hop)
  have hnew : byteSum 0 M' = _ := hsplit np rfl
  have hne₀ : byteSum 0 M' ≠ 0 := by
    intro hzero
    obtain ⟨b, hb, hb₀⟩ := hne
    exact hb₀ (byteSum_eq_zero_iff.mp hzero b hb)
  have hr : o % 8 < 8 := Nat.mod_lt _ (by omega)
  have hs : SumsTo (inSum64 M 0) (byteSum 0 M) := inSum64_sumsTo (by omega)
  have hs' : SumsTo (inSum64 M' 0) (byteSum 0 M') := inSum64_sumsTo (by omega)
  have hx : SumsTo (inSum64 op (o % 8)) (byteSum (o % 8) op) := inSum64_sumsTo hr
  have hy : SumsTo (inSum64 np (o % 8)) (byteSum (o % 8) np) := inSum64_sumsTo hr
  have hexchange := (hs.exchange hx hy (by omega) (by omega) hne₀).unique hs'
  unfold inCksum64Update inCksum64SubAdd inCksum64
  simp only [UInt64.not_not]
  constructor
  · by_cases hnil : np = []
    · -- nothing is replaced
      have hop₀ : op = [] := List.eq_nil_of_length_eq_zero (by rw [hop, hnil, List.length_nil])
      have hsame : byteSum 0 M = byteSum 0 M' := by rw [hold, hnew, hop₀.trans hnil.symm]
      rw [hsame] at hs
      rw [if_pos hnil, if_pos hop₀, hs.unique hs']
    · have hop₀ : op ≠ [] := by
        intro h
        rw [h, List.length_nil] at hop
        exact hnil (List.eq_nil_of_length_eq_zero hop.symm)
      rw [if_neg hnil, if_neg hop₀, hexchange]
  · rw [hexchange]

/-- Three bytes from the seventh on, over the end of a word. -/
theorem inCksum64_replace_straddling :
    inCksum64Update (inCksum64 [1, 2, 3, 4, 5, 6, 7, 8, 9, 10] 0) [7, 8, 9] 6 [0, 0, 1] 6 =
        inCksum64 [1, 2, 3, 4, 5, 6, 0, 0, 1, 10] 0 ∧
      inCksum64SubAdd (inCksum64 [1, 2, 3, 4, 5, 6, 7, 8, 9, 10] 0) (inCksum64 [7, 8, 9] 6)
        (inCksum64 [0, 0, 1] 6) = inCksum64 [1, 2, 3, 4, 5, 6, 0, 0, 1, 10] 0 :=
  inCksum64_replace [1, 2, 3, 4, 5, 6, 7, 8, 9, 10] [0, 0, 1] 6 (by decide)
    ⟨1, by decide, by decide⟩

/-! ### Bytes that are damaged -/

theorem SumsTo.eq_iff {m n : ℕ} {x y : UInt64} (hx : SumsTo x m) (hy : SumsTo y n) :
    x = y ↔ m ≡ n [MOD sumMod] ∧ (m = 0 ↔ n = 0) := by
  constructor
  · rintro rfl
    exact ⟨hx.modEq.symm.trans hy.modEq, hx.zero.symm.trans hy.zero⟩
  · rintro ⟨hmod, hzero⟩
    have hxn : SumsTo x n := ⟨hx.modEq.trans hmod, hx.zero.trans hzero⟩
    exact hxn.unique hy

/-- The number that bytes make up -/
abbrev leNat (bs : List UInt8) : ℕ := Nat.ofDigits 256 (bs.map UInt8.toNat)

/-- Where the bytes begin in a word only turns the number: `256 ^ 8` is one. -/
theorem byteSum_modEq (p : ℕ) (bs : List UInt8) : byteSum p bs ≡ 256 ^ p * leNat bs [MOD sumMod] := by
  induction bs generalizing p with
  | nil => exact Nat.ModEq.refl 0
  | cons b bs ih =>
      have hone : 256 ^ 8 ≡ 1 [MOD sumMod] := by decide
      have hpow : 256 ^ (p % 8) ≡ 256 ^ p [MOD sumMod] :=
        calc 256 ^ (p % 8) = 256 ^ (p % 8) * 1 ^ (p / 8) := by rw [one_pow, Nat.mul_one]
          _ ≡ 256 ^ (p % 8) * (256 ^ 8) ^ (p / 8) [MOD sumMod] := (hone.symm.pow _).mul_left _
          _ = 256 ^ p := by rw [← pow_mul, ← pow_add, Nat.mod_add_div]
      calc byteSum p (b :: bs)
          ≡ b.toNat * 256 ^ p + 256 ^ (p + 1) * leNat bs [MOD sumMod] :=
            (hpow.mul_left _).add (ih _)
        _ = 256 ^ p * leNat (b :: bs) := by
            rw [leNat, leNat, List.map_cons, Nat.ofDigits_cons]
            ring

theorem leNat_inj {as bs : List UInt8} (hlen : bs.length = as.length) (h : leNat as = leNat bs) :
    as = bs := by
  have hmap : as.map UInt8.toNat = bs.map UInt8.toNat :=
    Nat.ofDigits_inj_of_len_eq (by omega) (by simp [hlen])
      (by simpa using fun b _ => b.toNat_lt) (by simpa using fun b _ => b.toNat_lt) h
  exact List.map_injective_iff.mpr (fun _ _ => UInt8.toNat_inj.mp) hmap

theorem leNat_lt (bs : List UInt8) : leNat bs < 256 ^ bs.length := by
  have hlt := Nat.ofDigits_lt_base_pow_length (b := 256) (l := bs.map UInt8.toNat) (by omega)
    (by simpa using fun b _ => b.toNat_lt)
  rwa [List.length_map] at hlt

/-- Bytes of a word are equal modulo `sumMod` if they are equal, or one has all bits. -/
theorem leNat_modEq {as bs : List UInt8} (hlen : bs.length = as.length) (h8 : as.length ≤ 8)
    (h : leNat as ≡ leNat bs [MOD sumMod]) :
    as = bs ∨ as = List.replicate 8 0 ∧ bs = List.replicate 8 255 ∨
      as = List.replicate 8 255 ∧ bs = List.replicate 8 0 := by
  have hpow : 256 ^ as.length ≤ 256 ^ 8 := Nat.pow_le_pow_right (by omega) h8
  have ha := leNat_lt as
  have hb := leNat_lt bs
  rw [hlen] at hb
  by_cases heq : leNat as = leNat bs
  · exact .inl (leNat_inj hlen heq)
  have hcases : leNat as = 0 ∧ leNat bs = sumMod ∨ leNat as = sumMod ∧ leNat bs = 0 := by
    unfold Nat.ModEq sumMod at h
    unfold sumMod
    omega
  have hfull : as.length = 8 := by
    by_contra hne
    have hpow : 256 ^ as.length ≤ 256 ^ 7 := Nat.pow_le_pow_right (by omega) (by omega)
    unfold sumMod at hcases
    omega
  have hzeros : leNat (List.replicate 8 0) = 0 := by decide
  have hones : leNat (List.replicate 8 255) = sumMod := by decide
  right
  rcases hcases with ⟨h0, h1⟩ | ⟨h1, h0⟩
  · exact .inl ⟨leNat_inj hfull.symm (h0.trans hzeros.symm),
      leNat_inj (hfull.symm.trans hlen.symm) (h1.trans hones.symm)⟩
  · exact .inr ⟨leNat_inj hfull.symm (h1.trans hones.symm),
      leNat_inj (hfull.symm.trans hlen.symm) (h0.trans hzeros.symm)⟩

/-- Damage to at most eight bytes in a row, wherever they are, shows in the checksum,
unless eight zeros become `0xff` or the other way round. -/
theorem msgCksum64_damaged {m m' : Msg} {pR : Option ℕ} {pre as bs post : List UInt8}
    (hr : pR.getD 0 < 8) (hm : m.stream = pre ++ (as ++ post)) (hm' : m'.stream = pre ++ (bs ++ post))
    (hlen : bs.length = as.length) (h8 : as.length ≤ 8) :
    (m.cksum64 0 0 pR).1 = (m'.cksum64 0 0 pR).1 ↔ as = bs ∨ (∃ b ∈ pre ++ post, b ≠ 0) ∧
      (as = List.replicate 8 0 ∧ bs = List.replicate 8 255 ∨
        as = List.replicate 8 255 ∧ bs = List.replicate 8 0) := by
  have hsum := (m.cksum64_sumsTo pR hr).1
  have hsum' := (m'.cksum64_sumsTo pR hr).1
  rw [hm, byteSum_append, byteSum_append] at hsum
  rw [hm', byteSum_append, byteSum_append, hlen] at hsum'
  have hrest : (∃ b ∈ pre ++ post, b ≠ 0) ↔ byteSum (pR.getD 0) pre +
      byteSum (pR.getD 0 + pre.length + as.length) post ≠ 0 := by
    rw [Ne, Nat.add_eq_zero_iff, byteSum_eq_zero_iff, byteSum_eq_zero_iff, ← List.forall_mem_append]
    push Not
    rfl
  generalize pR.getD 0 + pre.length = p at hsum hsum' hrest
  generalize byteSum (pR.getD 0) pre = a at hsum hsum' hrest
  generalize byteSum (p + as.length) post = c at hsum hsum' hrest
  have hparts : (m.cksum64 0 0 pR).1 = (m'.cksum64 0 0 pR).1 ↔
      byteSum p as ≡ byteSum p bs [MOD sumMod] ∧
        (a + (byteSum p as + c) = 0 ↔ a + (byteSum p bs + c) = 0) := by
    rw [← UInt64.not_inj, hsum.eq_iff hsum', Nat.ModEq.add_iff_left rfl, Nat.ModEq.add_iff_right rfl]
  have hturn : byteSum p as ≡ byteSum p bs [MOD sumMod] ↔ leNat as ≡ leNat bs [MOD sumMod] := by
    have hcop : sumMod.gcd (256 ^ p) = 1 := Nat.Coprime.pow_right p (by decide)
    constructor
    · intro h
      exact Nat.ModEq.cancel_left_of_coprime hcop
        ((byteSum_modEq p as).symm.trans (h.trans (byteSum_modEq p bs)))
    · intro h
      exact (byteSum_modEq p as).trans ((h.mul_left _).trans (byteSum_modEq p bs).symm)
  have hzeros : byteSum p (List.replicate 8 0) = 0 := byteSum_replicate_zero p 8
  have hones : byteSum p (List.replicate 8 255) ≠ 0 := by
    rw [Ne, byteSum_eq_zero_iff]
    intro h
    exact absurd (h 255 (List.mem_replicate.mpr ⟨by omega, rfl⟩)) (by decide)
  have hwords : leNat (List.replicate 8 0) ≡ leNat (List.replicate 8 255) [MOD sumMod] := by decide
  rw [hparts, hturn, hrest]
  constructor
  · rintro ⟨hmod, hzero⟩
    rcases leNat_modEq hlen h8 hmod with heq | ⟨rfl, rfl⟩ | ⟨rfl, rfl⟩
    · exact .inl heq
    · exact .inr ⟨by omega, .inl ⟨rfl, rfl⟩⟩
    · exact .inr ⟨by omega, .inr ⟨rfl, rfl⟩⟩
  · rintro (rfl | ⟨hne, ⟨rfl, rfl⟩ | ⟨rfl, rfl⟩⟩)
    · exact ⟨rfl, Iff.rfl⟩
    · exact ⟨hwords, by omega⟩
    · exact ⟨hwords.symm, by omega⟩

/-- Two bytes that are behind a vector's end and in two words -/
theorem msgCksum64_damaged_straddling :
    let m : Msg := ⟨2, [⟨true, false, [1, 2, 3, 4, 5, 6, 7], 0, 7⟩, ⟨true, false, [8, 9], 0, 2⟩]⟩
    let m' : Msg := ⟨1, [⟨true, false, [1, 2, 3, 4, 5, 6, 7, 9, 8], 0, 9⟩]⟩
    (m.cksum64 0 0 none).1 ≠ (m'.cksum64 0 0 none).1 := by
  have hr : (none : Option ℕ).getD 0 < 8 := by decide
  have hm : Msg.stream ⟨2, [⟨true, false, [1, 2, 3, 4, 5, 6, 7], 0, 7⟩,
      ⟨true, false, [8, 9], 0, 2⟩]⟩ = [1, 2, 3, 4, 5, 6, 7] ++ ([8, 9] ++ []) := by decide
  have hm' : Msg.stream ⟨1, [⟨true, false, [1, 2, 3, 4, 5, 6, 7, 9, 8], 0, 9⟩]⟩ =
      [1, 2, 3, 4, 5, 6, 7] ++ ([9, 8] ++ []) := by decide
  have h := msgCksum64_damaged hr hm hm' rfl (by decide)
  exact fun heq => absurd (h.mp heq) (by decide)

end PaxosSolutions.NWGadget
