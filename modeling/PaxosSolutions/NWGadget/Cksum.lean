import Mathlib.Data.Nat.Digits.Lemmas
import Mathlib.Data.Nat.ModEq
import Mathlib.Tactic.Ring

/-!
# Checksums

`in_cksum64` is the complement of the sum of 64 bit words with the carry put
back in. Such sums are numbers modulo $2^{64} - 1$ in which zero is written in
two ways, and 0 is the sum of zeros only. So the sum of a part that is replaced
can be taken from a checksum and that of the new part be put to it.
-/
namespace PaxosSolutions.NWGadget

/-- Words that are equal modulo this are written alike, or are zero. -/
def sumMod : ℕ := 2 ^ 64 - 1

/-- A sum and a word, with the carry. -/
def sumCarry (sum w : UInt64) : UInt64 :=
  sum + w + if sum + w < w then 1 else 0

/-- The little-endian word of at most 8 bytes. -/
def leWord (bs : List UInt8) : UInt64 := UInt64.ofNat (Nat.ofDigits 256 (bs.map UInt8.toNat))

/-- The loop of `in_sum64` over `n` words, the last of which may be short. -/
def inSumWords : ℕ → List UInt8 → UInt64 → UInt64
  | 0, _, sum => sum
  | n + 1, bs, sum => inSumWords n (bs.drop 8) (sumCarry sum (leWord (bs.take 8)))

/-- `in_sum64` -/
def inSum64 (bs : List UInt8) (r : ℕ) : UInt64 :=
  if r = 0 then inSumWords ((bs.length + 7) / 8) bs 0
  else
    let rest := bs.drop (8 - r)
    inSumWords ((rest.length + 7) / 8) rest (leWord (List.replicate r 0 ++ bs.take (8 - r)))

/-- `in_cksum64` -/
def inCksum64 (bs : List UInt8) (r : ℕ) : UInt64 := ~~~inSum64 bs r

/-- `in_cksum64_sub_add` -/
def inCksum64SubAdd (cksum sub add : UInt64) : UInt64 :=
  ~~~sumCarry (sumCarry (~~~cksum) sub) (~~~add)

/-! ### Sums with the carry -/

theorem sumCarry_toNat (sum w : UInt64) : (sumCarry sum w).toNat =
    if sum.toNat + w.toNat < 2 ^ 64 then sum.toNat + w.toNat else sum.toNat + w.toNat - sumMod := by
  have hs := sum.toNat_lt
  have hw := w.toNat_lt
  unfold sumCarry sumMod
  rw [UInt64.toNat_add]
  split_ifs with hlt hno hno
  all_goals
    rw [UInt64.lt_iff_toNat_lt, UInt64.toNat_add] at hlt
    simp only [UInt64.toNat_add, UInt64.toNat_one, UInt64.toNat_zero]
    omega

theorem sumCarry_modEq (sum w : UInt64) :
    (sumCarry sum w).toNat ≡ sum.toNat + w.toNat [MOD sumMod] := by
  rw [sumCarry_toNat]
  split_ifs with h
  · rfl
  · have hle : sumMod ≤ sum.toNat + w.toNat := by
      unfold sumMod
      omega
    exact ((Nat.modEq_sub_modulus_iff hle).mpr (Nat.ModEq.refl _)).symm

theorem sumCarry_eq_zero_iff {sum w : UInt64} :
    (sumCarry sum w).toNat = 0 ↔ sum.toNat = 0 ∧ w.toNat = 0 := by
  have hs := sum.toNat_lt
  have hw := w.toNat_lt
  rw [sumCarry_toNat]
  unfold sumMod
  split_ifs <;> omega

theorem complement_toNat (x : UInt64) : (~~~x).toNat = sumMod - x.toNat := by
  rw [UInt64.toNat_not]
  simp [sumMod, UInt64.size]

/-! ### The sum as a number -/

/-- The bytes as the words see them, the first at `p` in its word. -/
def byteSum (p : ℕ) : List UInt8 → ℕ
  | [] => 0
  | b :: bs => b.toNat * 256 ^ (p % 8) + byteSum (p + 1) bs

theorem byteSum_append (p : ℕ) (as bs : List UInt8) :
    byteSum p (as ++ bs) = byteSum p as + byteSum (p + as.length) bs := by
  induction as generalizing p with
  | nil => simp [byteSum]
  | cons a as ih =>
      rw [List.cons_append, byteSum, byteSum, ih, List.length_cons]
      have hp : p + 1 + as.length = p + (as.length + 1) := by omega
      rw [hp, Nat.add_assoc]

theorem byteSum_add_eight (p : ℕ) (bs : List UInt8) : byteSum (p + 8) bs = byteSum p bs := by
  induction bs generalizing p with
  | nil => rfl
  | cons b bs ih =>
      have hp : p + 8 + 1 = p + 1 + 8 := by omega
      rw [byteSum, byteSum, hp, ih, Nat.add_mod_right]

theorem byteSum_mul_eight (q : ℕ) (bs : List UInt8) : byteSum (8 * q) bs = byteSum 0 bs := by
  induction q with
  | zero => rfl
  | succ q ih => rw [Nat.mul_succ, byteSum_add_eight, ih]

theorem byteSum_replicate_zero (p r : ℕ) : byteSum p (List.replicate r 0) = 0 := by
  induction r generalizing p with
  | zero => rfl
  | succ r ih => simp [List.replicate_succ, byteSum, ih]

/-- Within a word the bytes have the weights of digits. -/
theorem byteSum_word {p : ℕ} {bs : List UInt8} (h : p + bs.length ≤ 8) :
    byteSum p bs = 256 ^ p * Nat.ofDigits 256 (bs.map UInt8.toNat) := by
  induction bs generalizing p with
  | nil => simp [byteSum]
  | cons b bs ih =>
      rw [List.length_cons] at h
      rw [byteSum, ih (by omega), List.map_cons, Nat.ofDigits_cons, Nat.mod_eq_of_lt (by omega)]
      ring

theorem leWord_toNat {bs : List UInt8} (h : bs.length ≤ 8) : (leWord bs).toNat = byteSum 0 bs := by
  have hlt : Nat.ofDigits 256 (bs.map UInt8.toNat) < 2 ^ 64 := by
    have hdigits := Nat.ofDigits_lt_base_pow_length (b := 256) (l := bs.map UInt8.toNat) (by omega)
      (by simpa using fun b _ => b.toNat_lt)
    rw [List.length_map] at hdigits
    have hpow : 256 ^ bs.length ≤ 256 ^ 8 := Nat.pow_le_pow_right (by omega) h
    omega
  rw [byteSum_word (by omega), leWord, UInt64.toNat_ofNat', Nat.mod_eq_of_lt hlt]
  simp

/-- A number and a sum with the carry stand for each other: they are equal
modulo `sumMod`, and zero together. -/
structure SumsTo (sum : UInt64) (n : ℕ) : Prop where
  modEq : sum.toNat ≡ n [MOD sumMod]
  zero : sum.toNat = 0 ↔ n = 0

theorem SumsTo.carry {sum : UInt64} {n : ℕ} (h : SumsTo sum n) (w : UInt64) :
    SumsTo (sumCarry sum w) (n + w.toNat) where
  modEq := (sumCarry_modEq sum w).trans (h.modEq.add_right _)
  zero := by
    rw [sumCarry_eq_zero_iff, h.zero]
    omega

theorem inSumWords_sumsTo {n m : ℕ} {bs : List UInt8} {sum : UInt64}
    (hn : n = (bs.length + 7) / 8) (h : SumsTo sum m) :
    SumsTo (inSumWords n bs sum) (m + byteSum 0 bs) := by
  induction n generalizing bs sum m with
  | zero =>
      have hnil : bs = [] := List.eq_nil_of_length_eq_zero (by omega)
      rw [hnil]
      exact h
  | succ n ih =>
      have hlen : (bs.drop 8).length = bs.length - 8 := List.length_drop
      have htake : (bs.take 8).length ≤ 8 := List.length_take_le 8 bs
      have hlen' : n = ((bs.drop 8).length + 7) / 8 := by omega
      have hnext := ih hlen' (h.carry (leWord (bs.take 8)))
      have hsplit : byteSum 0 bs = byteSum 0 (bs.take 8) + byteSum 0 (bs.drop 8) := by
        conv_lhs => rw [← List.take_append_drop 8 bs]
        rw [byteSum_append]
        congr 1
        by_cases hshort : bs.length < 8
        · rw [List.drop_eq_nil_of_le (by omega)]
          rfl
        · rw [List.length_take, Nat.min_eq_left (by omega)]
          exact byteSum_add_eight 0 _
      rw [leWord_toNat htake, Nat.add_assoc, ← hsplit] at hnext
      exact hnext

/-- `in_sum64` stands for the bytes with their weights. -/
theorem inSum64_sumsTo {bs : List UInt8} {r : ℕ} (hr : r < 8) :
    SumsTo (inSum64 bs r) (byteSum r bs) := by
  unfold inSum64
  split
  · rename_i h
    rw [h]
    have h0 : SumsTo 0 0 := ⟨rfl, by simp⟩
    simpa using inSumWords_sumsTo rfl h0
  · have hlen : (List.replicate r (0 : UInt8) ++ bs.take (8 - r)).length ≤ 8 := by
      rw [List.length_append, List.length_replicate, List.length_take]
      omega
    have hword : (leWord (List.replicate r 0 ++ bs.take (8 - r))).toNat =
        byteSum r (bs.take (8 - r)) := by
      rw [leWord_toNat hlen, byteSum_append, byteSum_replicate_zero, List.length_replicate,
        Nat.zero_add, Nat.zero_add]
    have hstart : SumsTo (leWord (List.replicate r 0 ++ bs.take (8 - r)))
        (byteSum r (bs.take (8 - r))) := by
      constructor <;> rw [hword]
    have hsplit : byteSum r bs = byteSum r (bs.take (8 - r)) + byteSum 0 (bs.drop (8 - r)) := by
      conv_lhs => rw [← List.take_append_drop (8 - r) bs]
      rw [byteSum_append]
      congr 1
      by_cases hshort : bs.length < 8 - r
      · rw [List.drop_eq_nil_of_le (by omega)]
        rfl
      · rw [List.length_take, Nat.min_eq_left (by omega), Nat.add_sub_cancel' (by omega)]
        exact byteSum_add_eight 0 _
    rw [hsplit]
    exact inSumWords_sumsTo rfl hstart

theorem sum_le (x : UInt64) : x.toNat ≤ sumMod := by
  have hx := x.toNat_lt
  unfold sumMod
  omega

/-- Two sums of one number differ only in how they write zero. -/
theorem eq_or_of_modEq {x y : UInt64} (h : x.toNat ≡ y.toNat [MOD sumMod]) :
    x = y ∨ x.toNat = sumMod ∨ x.toNat = 0 ∧ y.toNat = sumMod := by
  by_cases hx : x.toNat = sumMod
  · exact .inr (.inl hx)
  have hxlt : x.toNat < sumMod := lt_of_le_of_ne (sum_le x) hx
  by_cases hy : y.toNat = sumMod
  · rw [hy] at h
    have hzero : x.toNat = 0 := by
      have := Nat.mod_eq_of_lt hxlt
      unfold Nat.ModEq at h
      rw [Nat.mod_self] at h
      omega
    exact .inr (.inr ⟨hzero, hy⟩)
  · have hylt : y.toNat < sumMod := lt_of_le_of_ne (sum_le y) hy
    exact .inl (UInt64.toNat_inj.mp (h.eq_of_lt_of_lt hxlt hylt))

/-- Where a part `sub` of `old` is replaced by `add`, the checksum becomes that
of the result or 0. -/
theorem inCksum64SubAdd_eq {old new sub add : List UInt8} {r : ℕ} (hr : r < 8)
    (h : byteSum 0 new + byteSum r sub = byteSum 0 old + byteSum r add)
    (hle : byteSum r sub ≤ byteSum 0 old) :
    inCksum64SubAdd (inCksum64 old 0) (inCksum64 sub r) (inCksum64 add r) = 0 ∨
      inCksum64SubAdd (inCksum64 old 0) (inCksum64 sub r) (inCksum64 add r) =
        inCksum64 new 0 := by
  have hold : SumsTo (inSum64 old 0) (byteSum 0 old) := inSum64_sumsTo (by omega)
  have hnew : SumsTo (inSum64 new 0) (byteSum 0 new) := inSum64_sumsTo (by omega)
  have hsub : SumsTo (inSum64 sub r) (byteSum r sub) := inSum64_sumsTo hr
  have hadd : SumsTo (inSum64 add r) (byteSum r add) := inSum64_sumsTo hr
  unfold inCksum64SubAdd inCksum64
  rw [UInt64.not_not, UInt64.not_not]
  have hmid := sumCarry_modEq (inSum64 old 0) (~~~inSum64 sub r)
  have hend := sumCarry_modEq (sumCarry (inSum64 old 0) (~~~inSum64 sub r)) (inSum64 add r)
  have hmod : (sumCarry (sumCarry (inSum64 old 0) (~~~inSum64 sub r)) (inSum64 add r)).toNat ≡
      (inSum64 new 0).toNat [MOD sumMod] := by
    apply Nat.ModEq.add_right_cancel' (inSum64 sub r).toNat
    have hcompl : (~~~inSum64 sub r).toNat + (inSum64 sub r).toNat = sumMod := by
      rw [complement_toNat]
      have := sum_le (inSum64 sub r)
      omega
    calc (sumCarry (sumCarry (inSum64 old 0) (~~~inSum64 sub r)) (inSum64 add r)).toNat +
            (inSum64 sub r).toNat
        ≡ (inSum64 old 0).toNat + (~~~inSum64 sub r).toNat + (inSum64 add r).toNat +
            (inSum64 sub r).toNat [MOD sumMod] :=
          (hend.trans (hmid.add_right _)).add_right _
      _ = (inSum64 old 0).toNat + (inSum64 add r).toNat + sumMod := by omega
      _ ≡ (inSum64 old 0).toNat + (inSum64 add r).toNat [MOD sumMod] := Nat.add_modEq_right
      _ ≡ byteSum 0 old + byteSum r add [MOD sumMod] := hold.modEq.add hadd.modEq
      _ = byteSum 0 new + byteSum r sub := h.symm
      _ ≡ (inSum64 new 0).toNat + (inSum64 sub r).toNat [MOD sumMod] :=
          (hnew.modEq.add hsub.modEq).symm
  rcases eq_or_of_modEq hmod with heq | hall | ⟨hzero, -⟩
  · right
    rw [heq]
  · left
    apply UInt64.toNat_inj.mp
    rw [complement_toNat, hall, Nat.sub_self]
    rfl
  · -- The sum is 0 only if all of `old` is, and then `sub` is.
    obtain ⟨h1, -⟩ := sumCarry_eq_zero_iff.mp hzero
    obtain ⟨h2, h3⟩ := sumCarry_eq_zero_iff.mp h1
    have h4 : (inSum64 sub r).toNat = 0 := hsub.zero.mpr (by have := hold.zero.mp h2; omega)
    rw [complement_toNat, h4] at h3
    cases h3

/-- A number has one sum. -/
theorem SumsTo.unique {x y : UInt64} {n : ℕ} (hx : SumsTo x n) (hy : SumsTo y n) : x = y := by
  rcases eq_or_of_modEq (hx.modEq.trans hy.modEq.symm) with h | h | ⟨h, h'⟩
  · exact h
  · rcases eq_or_of_modEq (hy.modEq.trans hx.modEq.symm) with h' | h' | ⟨h', -⟩
    · exact h'.symm
    · exact UInt64.toNat_inj.mp (h.trans h'.symm)
    · rw [hx.zero.mpr (hy.zero.mp h')] at h
      cases h
  · rw [hy.zero.mpr (hx.zero.mp h)] at h'
    cases h'

theorem inCksum64_congr {as bs : List UInt8} (h : byteSum 0 as = byteSum 0 bs) :
    inCksum64 as 0 = inCksum64 bs 0 := by
  have ha : SumsTo (inSum64 as 0) (byteSum 0 as) := inSum64_sumsTo (by omega)
  have hb : SumsTo (inSum64 bs 0) (byteSum 0 bs) := inSum64_sumsTo (by omega)
  rw [h] at ha
  unfold inCksum64
  rw [ha.unique hb]

/-! ### Checksums of parts of a buffer -/

/-- `n` bytes of a buffer. -/
def bufBytes (f : ℕ → UInt8) (off n : ℕ) : List UInt8 := (List.range n).map fun j => f (off + j)

section
variable {f g : ℕ → UInt8} {off m n start size : ℕ}

theorem bufBytes_add : bufBytes f off (m + n) = bufBytes f off m ++ bufBytes f (off + m) n := by
  unfold bufBytes
  rw [List.range_add, List.map_append, List.map_map]
  congr 2
  funext j
  simp [Nat.add_assoc]

theorem bufBytes_congr (h : ∀ j < n, f (off + j) = g (start + j)) :
    bufBytes f off n = bufBytes g start n :=
  List.map_congr_left fun j hj => h j (List.mem_range.mp hj)

theorem bufBytes_length : (bufBytes f off n).length = n := by simp [bufBytes]

theorem bufBytes_zero (h : ∀ x, off ≤ x → x < off + n → f x = 0) :
    bufBytes f off n = List.replicate n 0 := by
  refine List.eq_replicate_iff.mpr ⟨bufBytes_length, ?_⟩
  intro b hb
  obtain ⟨j, hj, rfl⟩ := List.mem_map.mp hb
  rw [List.mem_range] at hj
  exact h _ (by omega) (by omega)

/-- The sum of a range of a buffer is those of what is before, in and after a
part of it that begins with a word. -/
theorem byteSum_bufBytes (hlo : start ≤ off) (hword : (off - start) % 8 = 0)
    (hhi : off + n ≤ start + size) :
    byteSum 0 (bufBytes f start size) =
      byteSum 0 (bufBytes f start (off - start)) + byteSum 0 (bufBytes f off n) +
        byteSum (off - start + n) (bufBytes f (off + n) (start + size - (off + n))) := by
  have hsize : size = off - start + n + (start + size - (off + n)) := by omega
  have hmid : start + (off - start) = off := by omega
  have hend : start + (off - start + n) = off + n := by omega
  have hfirst : byteSum (off - start) (bufBytes f off n) = byteSum 0 (bufBytes f off n) := by
    have := byteSum_mul_eight ((off - start) / 8) (bufBytes f off n)
    rwa [Nat.mul_div_cancel' (Nat.dvd_of_mod_eq_zero hword)] at this
  conv_lhs => rw [hsize]
  rw [bufBytes_add, bufBytes_add, byteSum_append, byteSum_append, List.length_append,
    bufBytes_length, bufBytes_length, Nat.zero_add, Nat.zero_add, hmid, hend, hfirst]

/-- Where a buffer changes within a part, the checksum of the part is exchanged. -/
theorem inCksum64SubAdd_part (hlo : start ≤ off) (hword : (off - start) % 8 = 0)
    (hhi : off + n ≤ start + size)
    (hout : ∀ x, start ≤ x → x < start + size → x < off ∨ off + n ≤ x → g x = f x) :
    let c := inCksum64SubAdd (inCksum64 (bufBytes f start size) 0)
      (inCksum64 (bufBytes f off n) 0) (inCksum64 (bufBytes g off n) 0)
    c = 0 ∨ c = inCksum64 (bufBytes g start size) 0 := by
  have hf := byteSum_bufBytes (f := f) hlo hword hhi
  have hg := byteSum_bufBytes (f := g) hlo hword hhi
  have hbefore : bufBytes g start (off - start) = bufBytes f start (off - start) :=
    bufBytes_congr fun j hj => hout _ (by omega) (by omega) (.inl (by omega))
  have hafter : bufBytes g (off + n) (start + size - (off + n)) =
      bufBytes f (off + n) (start + size - (off + n)) :=
    bufBytes_congr fun j hj => hout _ (by omega) (by omega) (.inr (by omega))
  rw [hbefore, hafter] at hg
  refine inCksum64SubAdd_eq (by omega) ?_ ?_
  · omega
  · omega

/-- Zeros behind a part do not show in a checksum. -/
theorem inCksum64_part (hn : n ≤ size) (hzero : ∀ x, start + n ≤ x → x < start + size → f x = 0) :
    inCksum64 (bufBytes f start n) 0 = inCksum64 (bufBytes f start size) 0 := by
  refine inCksum64_congr ?_
  have hsize : size = n + (size - n) := by omega
  have hrest : bufBytes f (start + n) (size - n) = List.replicate (size - n) 0 :=
    bufBytes_zero fun x hx hx' => hzero x hx (by omega)
  conv_rhs => rw [hsize]
  rw [bufBytes_add, byteSum_append, hrest, byteSum_replicate_zero, Nat.add_zero]

end

end PaxosSolutions.NWGadget
