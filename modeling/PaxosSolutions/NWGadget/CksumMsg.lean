import PaxosSolutions.NWGadget.Cksum

/-!
# Checksums of messages

The checksum of a message is in its first word, and is taken while that is zero. Then
the message sums up to a number that is zero but for how it is written, and does so
still when a part is written anew and the checksum is corrected by it.
-/
namespace PaxosSolutions.NWGadget

/-- The lowest `k` bytes of a number. -/
def leBytes : ℕ → ℕ → List UInt8
  | 0, _ => []
  | k + 1, n => UInt8.ofNat n :: leBytes k (n / 256)

/-- The loop of `MsgCksum64`, with the sum and where in a word the next vector begins. -/
def msgSum64 : List (List UInt8) → ℕ → UInt64 → UInt64
  | [], _, sum => sum
  | v :: vs, r, sum => msgSum64 vs ((v.length + r) % 8) (sumCarry sum (inSum64 v r))

/-- `MsgCksum64` -/
def msgCksum64 (vs : List (List UInt8)) (r : ℕ) : UInt64 := ~~~msgSum64 vs r 0

/-- `in_cksum64_update` -/
def inCksum64Update (cksum : UInt64) (op : List UInt8) (opR : ℕ) (np : List UInt8) (npR : ℕ) : UInt64 :=
  let sum := ~~~cksum
  let sum := if op = [] then sum else sumCarry sum (~~~inSum64 op opR)
  let sum := if np = [] then sum else sumCarry sum (inSum64 np npR)
  ~~~sum

variable {k m n p r : ℕ} {bs tail vs : List UInt8} {x y cksum : UInt64}

theorem leBytes_length : (leBytes k n).length = k := by
  induction k generalizing n with
  | zero => rfl
  | succ k ih => rw [leBytes, List.length_cons, ih]

theorem ofDigits_leBytes : Nat.ofDigits 256 ((leBytes k n).map UInt8.toNat) = n % 256 ^ k := by
  induction k generalizing n with
  | zero => simp [leBytes, Nat.mod_one]
  | succ k ih =>
      have hmod : n % 256 ^ (k + 1) = n % 256 + 256 * (n / 256 % 256 ^ k) := by
        rw [pow_succ', Nat.mod_mul]
      rw [leBytes, List.map_cons, Nat.ofDigits_cons, ih, UInt8.toNat_ofNat', hmod]

/-- A word is its sum. -/
theorem byteSum_leBytes (w : UInt64) : byteSum 0 (leBytes 8 w.toNat) = w.toNat := by
  rw [byteSum_word (by rw [leBytes_length]), ofDigits_leBytes, pow_zero, Nat.one_mul]
  exact Nat.mod_eq_of_lt w.toNat_lt

theorem byteSum_mod (p : ℕ) (bs : List UInt8) : byteSum (p % 8) bs = byteSum p bs := by
  conv_rhs => rw [← Nat.mod_add_div p 8]
  generalize p / 8 = q
  induction q with
  | zero => rfl
  | succ q ih => rw [Nat.mul_succ, ← Nat.add_assoc, byteSum_add_eight, ih]

/-! ### Sums of vectors -/

theorem SumsTo.add (hx : SumsTo x m) (hy : SumsTo y n) : SumsTo (sumCarry x y) (m + n) where
  modEq := (sumCarry_modEq x y).trans (hx.modEq.add hy.modEq)
  zero := by
    rw [sumCarry_eq_zero_iff, hx.zero, hy.zero]
    omega

theorem msgSum64_sumsTo (vs : List (List UInt8)) (hr : r < 8) (h : SumsTo x n) :
    SumsTo (msgSum64 vs r x) (n + byteSum r vs.flatten) := by
  induction vs generalizing r n x with
  | nil => exact h
  | cons v vs ih =>
      have hnext := ih (Nat.mod_lt (v.length + r) (by omega)) (h.add (inSum64_sumsTo hr : SumsTo (inSum64 v r) (byteSum r v)))
      rw [byteSum_mod, Nat.add_comm v.length, Nat.add_assoc, ← byteSum_append] at hnext
      rwa [msgSum64, List.flatten_cons, Nat.add_comm v.length]

theorem msgSum64_zero (vs : List (List UInt8)) : SumsTo (msgSum64 vs 0 0) (byteSum 0 vs.flatten) := by
  have h := msgSum64_sumsTo vs (r := 0) (by omega) (⟨rfl, by simp⟩ : SumsTo 0 0)
  rwa [Nat.zero_add] at h

/-! ### Messages that check -/

/-- A message checks if it sums up to a multiple that is not zero itself. -/
theorem inCksum64_eq_zero_iff :
    inCksum64 bs 0 = 0 ↔ byteSum 0 bs ≡ 0 [MOD sumMod] ∧ byteSum 0 bs ≠ 0 := by
  have hsum : SumsTo (inSum64 bs 0) (byteSum 0 bs) := inSum64_sumsTo (by omega)
  have hle := sum_le (inSum64 bs 0)
  have hpos : 0 < sumMod := by decide
  have hz := hsum.zero
  unfold inCksum64
  rw [← UInt64.toNat_inj, complement_toNat, UInt64.toNat_zero]
  constructor
  · intro h
    have hall : (inSum64 bs 0).toNat = sumMod := by omega
    have hmod := hsum.modEq
    rw [hall] at hmod
    exact ⟨hmod.symm.trans (Nat.mod_self _), by omega⟩
  · rintro ⟨hmod, hne⟩
    obtain ⟨q, hq⟩ := (Nat.modEq_zero_iff_dvd).mp (hsum.modEq.trans hmod)
    have hq₀ : q ≠ 0 := fun h => hne (hz.mp (by rw [hq, h, Nat.mul_zero]))
    have := Nat.mul_le_mul_left sumMod (Nat.one_le_iff_ne_zero.mpr hq₀)
    omega

theorem byteSum_first (cksum : UInt64) (tail : List UInt8) :
    byteSum 0 (leBytes 8 cksum.toNat ++ tail) = cksum.toNat + byteSum 0 tail := by
  rw [byteSum_append, byteSum_leBytes, leBytes_length]
  exact congrArg _ (byteSum_add_eight 0 tail)

/-- A message with its checksum, that was taken with zeros in its place, checks. -/
theorem inCksum64_sealed (h : SumsTo x (byteSum 0 tail)) :
    inCksum64 (leBytes 8 (~~~x).toNat ++ tail) 0 = 0 := by
  rw [inCksum64_eq_zero_iff, byteSum_first, complement_toNat]
  have hle := sum_le x
  have hpos : 0 < sumMod := by decide
  constructor
  · calc sumMod - x.toNat + byteSum 0 tail
        ≡ sumMod - x.toNat + x.toNat [MOD sumMod] := h.modEq.symm.add_left _
      _ = sumMod := Nat.sub_add_cancel hle
      _ ≡ 0 [MOD sumMod] := Nat.mod_self _
  · intro hz
    have := h.zero.mpr (by omega)
    omega

/-- Messages that check make up one that checks. -/
theorem inCksum64_append {as : List UInt8} (ha : inCksum64 as 0 = 0) (hb : inCksum64 bs 0 = 0)
    (hlen : as.length % 8 = 0) : inCksum64 (as ++ bs) 0 = 0 := by
  rw [inCksum64_eq_zero_iff] at ha hb ⊢
  have hsplit : byteSum 0 (as ++ bs) = byteSum 0 as + byteSum 0 bs := by
    rw [byteSum_append, Nat.zero_add, ← byteSum_mod as.length, hlen]
  rw [hsplit]
  exact ⟨ha.1.add hb.1, by omega⟩

/-- Where a part that begins with a word is written anew and the checksum is corrected
by it, a message that checks does so still, if there is anything besides. -/
theorem inCksum64_update {pre op np post : List UInt8} (hpre : pre.length % 8 = 0)
    (hop : op ≠ []) (hnp : np ≠ []) (hlen : np.length = op.length) (hne : byteSum 0 pre ≠ 0)
    (h : inCksum64 (leBytes 8 cksum.toNat ++ (pre ++ (op ++ post))) 0 = 0) :
    inCksum64 (leBytes 8 (inCksum64Update cksum op 0 np 0).toNat ++ (pre ++ (np ++ post))) 0 = 0 := by
  rw [inCksum64_eq_zero_iff, byteSum_first] at h ⊢
  have hsplit (q : List UInt8) : byteSum 0 (pre ++ (q ++ post)) =
      byteSum 0 pre + byteSum 0 q + byteSum q.length post := by
    rw [byteSum_append, Nat.zero_add, ← byteSum_mod pre.length, hpre, byteSum_append, Nat.zero_add,
      Nat.add_assoc]
  rw [hsplit] at h ⊢
  rw [hlen]
  have ho : SumsTo (inSum64 op 0) (byteSum 0 op) := inSum64_sumsTo (by omega)
  have hn : SumsTo (inSum64 np 0) (byteSum 0 np) := inSum64_sumsTo (by omega)
  unfold inCksum64Update
  simp only [if_neg hop, if_neg hnp]
  rw [complement_toNat]
  have hmid := sumCarry_modEq (~~~cksum) (~~~inSum64 op 0)
  have hend := sumCarry_modEq (sumCarry (~~~cksum) (~~~inSum64 op 0)) (inSum64 np 0)
  have hle := sum_le (sumCarry (sumCarry (~~~cksum) (~~~inSum64 op 0)) (inSum64 np 0))
  generalize sumCarry (sumCarry (~~~cksum) (~~~inSum64 op 0)) (inSum64 np 0) = new at hend hle ⊢
  have hc := sum_le cksum
  have hso := sum_le (inSum64 op 0)
  rw [complement_toNat, complement_toNat] at hmid
  have hM : sumMod ≡ 0 [MOD sumMod] := Nat.mod_self _
  have hnew : new.toNat + cksum.toNat + byteSum 0 op ≡ byteSum 0 np [MOD sumMod] :=
    calc new.toNat + cksum.toNat + byteSum 0 op
        ≡ sumMod - cksum.toNat + (sumMod - (inSum64 op 0).toNat) + (inSum64 np 0).toNat +
            cksum.toNat + (inSum64 op 0).toNat [MOD sumMod] :=
          (((hend.trans (hmid.add_right _)).add_right _).add ho.modEq.symm)
      _ = sumMod + sumMod + (inSum64 np 0).toNat := by omega
      _ ≡ 0 + 0 + byteSum 0 np [MOD sumMod] := (hM.add hM).add hn.modEq
      _ = byteSum 0 np := by omega
  refine ⟨?_, by omega⟩
  apply Nat.ModEq.add_right_cancel' (new.toNat + cksum.toNat + byteSum 0 op)
  calc sumMod - new.toNat + (byteSum 0 pre + byteSum 0 np + byteSum op.length post) +
          (new.toNat + cksum.toNat + byteSum 0 op)
      = sumMod + (cksum.toNat + (byteSum 0 pre + byteSum 0 op + byteSum op.length post)) +
          byteSum 0 np := by omega
    _ ≡ 0 + 0 + (new.toNat + cksum.toNat + byteSum 0 op) [MOD sumMod] :=
        (hM.add h.1).add hnew.symm
    _ = 0 + (new.toNat + cksum.toNat + byteSum 0 op) := by omega

end PaxosSolutions.NWGadget
