import PaxosSolutions.Lib.Sorting
import PaxosSolutions.XjPing.EqualHash
import Mathlib.Tactic.Ring

/-!
# The comparison of a sort

Records are compared by one key after another, and each key by the function for the
type of its column. The functions for words of 32 bits answer with a difference, which
is taken modulo `2 ^ 32` too, so its sign is that of the key order only for words that
are near to each other.
-/
namespace PaxosSolutions.XjPing
open Lib
variable {α : Type}

def R_DESCENDANT : ℤ := 2

/-- `r_sort_t` -/
structure RSort where
  sName : String
  sOrder : ℤ
deriving DecidableEq, Repr

/-- The functions a key may be compared by. That of a column of bytes is not set. -/
inductive SComp where
  | up | down | uup | udown | lup | ldown | ulup | uldown | fup | fdown | sup | sdown | unset
deriving DecidableEq, Repr

/-- `r_sorter_t` -/
structure RSorter where
  sOffset : ℕ
  sLength : ℕ
  sComp : SComp
deriving DecidableEq, Repr

/-! ### Words, floats and strings -/

def int32At (data : List UInt8) : BitVec 32 := .ofNat 32 (leWord (data.take 4))

def int64At (data : List UInt8) : BitVec 64 := .ofNat 64 (leWord (data.take 8))

/-- A float as its place among the floats. There is none for what is not a number. -/
def floatAt (data : List UInt8) : Option ℤ :=
  let n := (int32At data).toNat
  let size : ℕ := n % 2 ^ 31
  if 0xFF * 2 ^ 23 < size then none
  else if n < 2 ^ 31 then some size
  else some (-size)

/-- `==` of floats -/
def floatEq (x y : Option ℤ) : Bool := x.isSome && x = y

/-- `>` of floats -/
def floatGt (x y : Option ℤ) : Bool := x.any fun x => y.any fun y => y < x

/-- `strncmp` of strings that a zero may follow -/
def strncmp : ℕ → List UInt8 → List UInt8 → ℤ
  | 0, _, _ => 0
  | n + 1, s, t =>
      let c := s.headD 0
      let d := t.headD 0
      if c ≠ d then c.toNat - d.toNat else if c = 0 then 0 else strncmp n s.tail t.tail

/-! ### The comparison functions -/

/-- The difference as an `int` -/
def minus32 (data1 data2 : List UInt8) : ℤ := (int32At data1 - int32At data2).toInt

/-- The comparison of what is given as an `int64` or a `uint64` -/
def three (x y : ℤ) : ℤ := if x = y then 0 else if y < x then 1 else -1

def dbUp (data1 data2 : List UInt8) : ℤ := minus32 data1 data2

def dbDown (data1 data2 : List UInt8) : ℤ := minus32 data2 data1

/-- The difference of unsigned words has the bytes of that of signed ones. -/
def dbUup (data1 data2 : List UInt8) : ℤ := minus32 data1 data2

def dbUdown (data1 data2 : List UInt8) : ℤ := minus32 data2 data1

def dbLup (data1 data2 : List UInt8) : ℤ := three (int64At data1).toInt (int64At data2).toInt

def dbLdown (data1 data2 : List UInt8) : ℤ := three (int64At data2).toInt (int64At data1).toInt

def dbUlup (data1 data2 : List UInt8) : ℤ := three (int64At data1).toNat (int64At data2).toNat

def dbUldown (data1 data2 : List UInt8) : ℤ := three (int64At data2).toNat (int64At data1).toNat

def dbFup (data1 data2 : List UInt8) : ℤ :=
  let x := floatAt data1
  let y := floatAt data2
  if floatGt x y then 1 else if floatEq x y then 0 else -1

def dbFdown (data1 data2 : List UInt8) : ℤ :=
  let x := floatAt data1
  let y := floatAt data2
  if floatGt x y then -1 else if floatEq x y then 0 else 1

def dbSup (data1 data2 : List UInt8) (len : ℕ) : ℤ := strncmp len data1 data2

def dbSdown (data1 data2 : List UInt8) (len : ℕ) : ℤ := strncmp len data2 data1

/-- A call through `s_comp`. What is not set is not called here. -/
def SComp.call : SComp → List UInt8 → List UInt8 → ℕ → ℤ
  | .up, data1, data2, _ => dbUp data1 data2
  | .down, data1, data2, _ => dbDown data1 data2
  | .uup, data1, data2, _ => dbUup data1 data2
  | .udown, data1, data2, _ => dbUdown data1 data2
  | .lup, data1, data2, _ => dbLup data1 data2
  | .ldown, data1, data2, _ => dbLdown data1 data2
  | .ulup, data1, data2, _ => dbUlup data1 data2
  | .uldown, data1, data2, _ => dbUldown data1 data2
  | .fup, data1, data2, _ => dbFup data1 data2
  | .fdown, data1, data2, _ => dbFdown data1 data2
  | .sup, data1, data2, len => dbSup data1 data2 len
  | .sdown, data1, data2, len => dbSdown data1 data2 len
  | .unset, _, _, _ => 0

/-- One key of two records -/
def RSorter.comp (s : RSorter) (data1 data2 : List UInt8) : ℤ :=
  s.sComp.call (data1.drop s.sOffset) (data2.drop s.sOffset) s.sLength

/-- `db_compare` -/
def dbCompare : List RSorter → List UInt8 → List UInt8 → ℤ
  | [], _, _ => 0
  | s :: sorter, data1, data2 =>
      let ret := s.comp data1 data2
      if ret ≠ 0 then ret else dbCompare sorter data1 data2

/-- The function for a column and an order -/
def sComp (iAttr : RAttr) (sOrder : ℤ) : SComp :=
  match iAttr with
  | .int => if sOrder = R_DESCENDANT then .down else .up
  | .hex => if sOrder = R_DESCENDANT then .udown else .uup
  | .uint => if sOrder = R_DESCENDANT then .udown else .uup
  | .long => if sOrder = R_DESCENDANT then .ldown else .lup
  | .ulong => if sOrder = R_DESCENDANT then .uldown else .ulup
  | .float => if sOrder = R_DESCENDANT then .fdown else .fup
  | .str => if sOrder = R_DESCENDANT then .sdown else .sup
  | .bytes => .unset

/-- The column of a sort key -/
def sortItem (tScm : List RItem) (s : RSort) : Option (RItem × RSort) :=
  (tScm.find? fun ip => ip.iName = s.sName).map fun ip => (ip, s)

def sorterOf (k : RItem × RSort) : RSorter where
  sOffset := k.1.iOff
  sLength := k.1.iLen
  sComp := sComp k.1.iAttr k.2.sOrder

/-- The columns of the sort keys, if there is one for each -/
def sortItems (tScm : List RItem) (sort : List RSort) : Option (List (RItem × RSort)) :=
  sort.mapM (sortItem tScm)

/-- `_rdb_sort_open`, `E_RDB_NOITEM` for a key without a column. -/
def rdbSortOpen (tScm : List RItem) (sort : List RSort) : Option (List RSorter) :=
  (sortItems tScm sort).map fun keys => keys.map sorterOf

/-! ### The order of the keys -/

/-- The bytes of a string before its first zero -/
def cstr (bs : List UInt8) : List UInt8 := bs.takeWhile (· ≠ 0)

/-- The types a sort key is asked to order. -/
def RAttr.sortable : RAttr → Bool
  | .float | .bytes => false
  | _ => true

/-- Two records by the values of a column -/
def RItem.compare (ip : RItem) (data1 data2 : List UInt8) : Ordering :=
  let data1 := data1.drop ip.iOff
  let data2 := data2.drop ip.iOff
  match ip.iAttr with
  | .int => Ord.compare (int32At data1).toInt (int32At data2).toInt
  | .hex | .uint => Ord.compare (int32At data1).toNat (int32At data2).toNat
  | .long => Ord.compare (int64At data1).toInt (int64At data2).toInt
  | .ulong => Ord.compare (int64At data1).toNat (int64At data2).toNat
  | .str => Ord.compare (cstr (data1.take ip.iLen)) (cstr (data2.take ip.iLen))
  | .float | .bytes => .eq

/-- Two records by one key -/
def keyCompare (k : RItem × RSort) (data1 data2 : List UInt8) : Ordering :=
  if k.2.sOrder = R_DESCENDANT then k.1.compare data2 data1 else k.1.compare data1 data2

/-- Two records by the first key in which they differ -/
def keysCompare : List (RItem × RSort) → List UInt8 → List UInt8 → Ordering
  | [] => fun _ _ => .eq
  | k :: keys => compareLex (keyCompare k) (keysCompare keys)

/-- The difference of two values of 32 bits fits in an `int`, in both directions. -/
def RItem.Near (ip : RItem) (data1 data2 : List UInt8) : Prop :=
  let data1 := data1.drop ip.iOff
  let data2 := data2.drop ip.iOff
  match ip.iAttr with
  | .int => ((int32At data1).toInt - (int32At data2).toInt).natAbs < 2 ^ 31
  | .hex | .uint => ((int32At data1).toNat - (int32At data2).toNat : ℤ).natAbs < 2 ^ 31
  | _ => True

instance : (ip : RItem) → (data1 data2 : List UInt8) → Decidable (ip.Near data1 data2)
  | ⟨_, .int, _, _⟩, _, _ => inferInstanceAs (Decidable (_ < _))
  | ⟨_, .hex, _, _⟩, _, _ => inferInstanceAs (Decidable (_ < _))
  | ⟨_, .uint, _, _⟩, _, _ => inferInstanceAs (Decidable (_ < _))
  | ⟨_, .float, _, _⟩, _, _ => inferInstanceAs (Decidable True)
  | ⟨_, .str, _, _⟩, _, _ => inferInstanceAs (Decidable True)
  | ⟨_, .long, _, _⟩, _, _ => inferInstanceAs (Decidable True)
  | ⟨_, .ulong, _, _⟩, _, _ => inferInstanceAs (Decidable True)
  | ⟨_, .bytes, _, _⟩, _, _ => inferInstanceAs (Decidable True)

/-- The first key in which two records differ has near values. -/
def KeysNear : List (RItem × RSort) → List UInt8 → List UInt8 → Prop
  | [], _, _ => True
  | k :: keys, data1, data2 =>
      if k.1.compare data1 data2 = .eq then KeysNear keys data1 data2 else k.1.Near data1 data2

instance decidableKeysNear : (keys : List (RItem × RSort)) → (data1 data2 : List UInt8) →
    Decidable (KeysNear keys data1 data2)
  | [], _, _ => inferInstanceAs (Decidable True)
  | k :: keys, data1, data2 =>
      have := decidableKeysNear keys data1 data2
      inferInstanceAs (Decidable
        (if k.1.compare data1 data2 = .eq then KeysNear keys data1 data2 else k.1.Near data1 data2))

/-! ### The signs of the comparisons -/

theorem sign_iff {z x y : ℤ} :
    compare z 0 = compare x y ↔ (z < 0 ↔ x < y) ∧ (0 < z ↔ y < x) := by
  rcases lt_trichotomy z 0 with hz | hz | hz <;> rcases lt_trichotomy x y with h | h | h <;>
    simp [compare_lt_iff_lt.mpr, compare_gt_iff_gt.mpr, *] <;> omega

/-- A difference of words, as a word -/
theorem bmod_cases {z : ℤ} (h : z.natAbs < 2 ^ 32) :
    z.natAbs < 2 ^ 31 ∧ z.bmod (2 ^ 32) = z ∨
      2 ^ 31 ≤ z ∧ z.bmod (2 ^ 32) = z - 2 ^ 32 ∨
      z = -2 ^ 31 ∧ z.bmod (2 ^ 32) = z ∨
      z < -2 ^ 31 ∧ z.bmod (2 ^ 32) = z + 2 ^ 32 := by
  simp only [Int.bmod]
  omega

/-- What a comparison says of an order: which elements it takes for equal, and where
its signs are those of the order. -/
structure Signs (cmp : α → α → ℤ) (ord : α → α → Ordering) (near : α → α → Prop) : Prop where
  zero : ∀ a b, cmp a b = 0 ↔ ord a b = .eq
  signs : ∀ a b, SignOf cmp ord a b ∧ SignOf cmp ord b a ↔ near a b

theorem Signs.swap {cmp : α → α → ℤ} {ord : α → α → Ordering} {near : α → α → Prop}
    (h : Signs cmp ord near) : Signs (fun a b => cmp b a) (fun a b => ord b a) near where
  zero a b := h.zero b a
  signs a b := and_comm.trans (h.signs a b)

theorem signs_of_sign {cmp : α → α → ℤ} {ord : α → α → Ordering} (h : ∀ a b, SignOf cmp ord a b) :
    Signs cmp ord fun _ _ => True where
  zero a b := by rw [← h a b, compare_eq_iff_eq]
  signs a b := iff_true_intro ⟨h a b, h b a⟩

/-- The difference of words as a comparison of their values -/
theorem signs_minus {v : α → ℤ} {cmp : α → α → ℤ}
    (hcmp : ∀ a b, cmp a b = (v a - v b).bmod (2 ^ 32)) (hv : ∀ a b, (v a - v b).natAbs < 2 ^ 32) :
    Signs cmp (fun a b => compare (v a) (v b)) fun a b => (v a - v b).natAbs < 2 ^ 31 where
  zero a b := by
    rw [hcmp, compare_eq_iff_eq]
    have hab := bmod_cases (hv a b)
    generalize (v a - v b).bmod (2 ^ 32) = z at hab
    have := hv a b
    omega
  signs a b := by
    unfold SignOf
    rw [sign_iff, sign_iff, hcmp, hcmp]
    have hab := bmod_cases (hv a b)
    have hba := bmod_cases (hv b a)
    generalize (v a - v b).bmod (2 ^ 32) = z at hab
    generalize (v b - v a).bmod (2 ^ 32) = w at hba
    have := hv a b
    omega

theorem three_sign (x y : ℤ) : compare (three x y) 0 = compare x y := by
  rw [sign_iff]
  unfold three
  split_ifs <;> omega

theorem compare_cast (a b : ℕ) : compare (a : ℤ) (b : ℤ) = compare a b := by
  rcases lt_trichotomy a b with h | h | h
  · rw [compare_lt_iff_lt.mpr h, compare_lt_iff_lt, Int.ofNat_lt]
    exact h
  · rw [compare_eq_iff_eq.mpr h, compare_eq_iff_eq, h]
  · rw [compare_gt_iff_gt.mpr h, compare_gt_iff_gt, Int.ofNat_lt]
    exact h

theorem minus32_int (data1 data2 : List UInt8) : minus32 data1 data2 =
    ((int32At data1).toInt - (int32At data2).toInt).bmod (2 ^ 32) := BitVec.toInt_sub ..

theorem minus32_nat (data1 data2 : List UInt8) : minus32 data1 data2 =
    ((int32At data1).toNat - (int32At data2).toNat : ℤ).bmod (2 ^ 32) := by
  rw [minus32_int, BitVec.toInt_eq_toNat_bmod, BitVec.toInt_eq_toNat_bmod, Int.sub_bmod_bmod,
    Int.bmod_sub_bmod]

/-- A string that ends is followed by a zero. -/
theorem cstr_take_succ (n : ℕ) (s : List UInt8) : cstr (s.take (n + 1)) =
    if s.headD 0 = 0 then [] else s.headD 0 :: cstr (s.tail.take n) := by
  cases s with
  | nil => rfl
  | cons c s =>
      rw [cstr, List.take_succ_cons, List.takeWhile_cons]
      by_cases hc : c = 0 <;> simp [hc, cstr]

theorem compare_byte (c d : UInt8) : compare c d = compare (c.toNat : ℤ) d.toNat := by
  rw [compare_cast]
  change compareOfLessAndEq c d = compareOfLessAndEq c.toNat d.toNat
  simp only [compareOfLessAndEq, UInt8.lt_iff_toNat_lt, ← UInt8.toNat_inj]

theorem strncmp_sign (n : ℕ) (s t : List UInt8) :
    compare (strncmp n s t) 0 = compare (cstr (s.take n)) (cstr (t.take n)) := by
  induction n generalizing s t with
  | zero => rfl
  | succ n ih =>
      rw [strncmp, cstr_take_succ, cstr_take_succ]
      generalize s.headD 0 = c, t.headD 0 = d
      have hzero : (0 : UInt8).toNat = 0 := rfl
      have hpos (x : UInt8) (hx : x ≠ 0) : (0 : ℤ) < x.toNat := by
        have := UInt8.toNat_inj.not.mpr hx
        omega
      by_cases hne : c = d
      · subst hne
        by_cases hc : c = 0
        · simp [hc]
        · simp [hc, ih, List.compare_cons_cons]
      · rw [if_pos hne]
        by_cases hc : c = 0
        · have hd : d ≠ 0 := fun hd => hne (hc.trans hd.symm)
          have := hpos d hd
          rw [if_pos hc, if_neg hd, hc, List.compare_nil_cons, compare_lt_iff_lt, hzero]
          omega
        · rw [if_neg hc]
          by_cases hd : d = 0
          · have := hpos c hc
            rw [if_pos hd, hd, List.compare_cons_nil, compare_gt_iff_gt, hzero]
            omega
          · have hcd := UInt8.toNat_inj.not.mpr hne
            have hnz : compare (c.toNat : ℤ) d.toNat ≠ .eq := by
              rw [Ne, compare_eq_iff_eq]
              omega
            have hsign : compare ((c.toNat : ℤ) - d.toNat) 0 = compare (c.toNat : ℤ) d.toNat := by
              rw [sign_iff]
              omega
            rw [if_neg hd, List.compare_cons_cons, compare_byte, hsign]
            cases h : compare (c.toNat : ℤ) d.toNat with
            | lt => rfl
            | gt => rfl
            | eq => exact absurd h hnz

/-! ### The comparison of two records -/

theorem int32_diff (x y : BitVec 32) : (x.toInt - y.toInt).natAbs < 2 ^ 32 := by
  have hx := x.toInt_lt
  have hx' := x.le_toInt
  have hy := y.toInt_lt
  have hy' := y.le_toInt
  omega

theorem uint32_diff (x y : BitVec 32) : (x.toNat - y.toNat : ℤ).natAbs < 2 ^ 32 := by
  have hx := x.isLt
  have hy := y.isLt
  omega

/-- A column of words that are taken for numbers -/
theorem signs_word (off : ℕ) {v : BitVec 32 → ℤ}
    (hminus : ∀ a b, minus32 a b = (v (int32At a) - v (int32At b)).bmod (2 ^ 32))
    (hdiff : ∀ x y, (v x - v y).natAbs < 2 ^ 32) :
    Signs (α := List UInt8) (fun a b => minus32 (a.drop off) (b.drop off))
      (fun a b => compare (v (int32At (a.drop off))) (v (int32At (b.drop off))))
      fun a b => (v (int32At (a.drop off)) - v (int32At (b.drop off))).natAbs < 2 ^ 31 :=
  signs_minus (v := fun a : List UInt8 => v (int32At (a.drop off)))
    (fun a b => hminus (a.drop off) (b.drop off))
    fun a b => hdiff (int32At (a.drop off)) (int32At (b.drop off))

theorem signs_uint (off : ℕ) : Signs (α := List UInt8) (fun a b => minus32 (a.drop off) (b.drop off))
    (fun a b => compare (int32At (a.drop off)).toNat (int32At (b.drop off)).toNat)
    fun a b => ((int32At (a.drop off)).toNat - (int32At (b.drop off)).toNat : ℤ).natAbs < 2 ^ 31 := by
  have hsigns := signs_word off (v := fun x => (x.toNat : ℤ)) minus32_nat uint32_diff
  simpa only [compare_cast] using hsigns

/-- The ascending function of a column compares its values. -/
theorem signs_up {ip : RItem} {s : RSort} (h : s.sOrder ≠ R_DESCENDANT)
    (hsort : ip.iAttr.sortable = true) : Signs (sorterOf (ip, s)).comp ip.compare ip.Near := by
  obtain ⟨iName, iAttr, iLen, iOff⟩ := ip
  unfold sorterOf sComp RSorter.comp RItem.compare RItem.Near
  cases iAttr <;> simp only [if_neg h, SComp.call]
  case float => cases hsort
  case bytes => cases hsort
  case int => exact signs_word iOff minus32_int int32_diff
  case hex => exact signs_uint iOff
  case uint => exact signs_uint iOff
  case long => exact signs_of_sign fun _ _ => three_sign ..
  case ulong => exact signs_of_sign fun _ _ => (three_sign ..).trans (compare_cast ..)
  case str => exact signs_of_sign fun _ _ => strncmp_sign ..

/-- The descending function of a column is the ascending one the other way. -/
theorem comp_down {ip : RItem} {s t : RSort} (hs : s.sOrder = R_DESCENDANT)
    (ht : t.sOrder ≠ R_DESCENDANT) (hsort : ip.iAttr.sortable = true) (data1 data2 : List UInt8) :
    (sorterOf (ip, s)).comp data1 data2 = (sorterOf (ip, t)).comp data2 data1 := by
  obtain ⟨iName, iAttr, iLen, iOff⟩ := ip
  unfold sorterOf sComp RSorter.comp
  cases iAttr <;> simp only [if_pos hs, if_neg ht, SComp.call]
  case float => cases hsort
  all_goals rfl

theorem signs_key {k : RItem × RSort} (hsort : k.1.iAttr.sortable = true) :
    Signs (sorterOf k).comp (keyCompare k) k.1.Near := by
  obtain ⟨ip, s⟩ := k
  by_cases h : s.sOrder = R_DESCENDANT
  · have ht : (0 : ℤ) ≠ R_DESCENDANT := by decide
    have hcomp : (sorterOf (ip, s)).comp = fun a b => (sorterOf (ip, ⟨s.sName, 0⟩)).comp b a := by
      funext a b
      exact comp_down h ht hsort a b
    have hord : keyCompare (ip, s) = fun a b => ip.compare b a := by
      funext a b
      exact if_pos h
    rw [hcomp, hord]
    exact (signs_up ht hsort).swap
  · have hord : keyCompare (ip, s) = ip.compare := by
      funext a b
      exact if_neg h
    rw [hord]
    exact signs_up h hsort

/-- Values in their order -/
theorem transCmp_on {β : Type} [Ord β] [Std.TransOrd β] (f : α → β) :
    Std.TransCmp fun a b => compare (f a) (f b) := inferInstanceAs (Std.TransCmp (compareOn f))

instance (ip : RItem) : Std.TransCmp ip.compare := by
  obtain ⟨iName, iAttr, iLen, iOff⟩ := ip
  cases iAttr with
  | int => exact transCmp_on fun a : List UInt8 => (int32At (a.drop iOff)).toInt
  | hex => exact transCmp_on fun a : List UInt8 => (int32At (a.drop iOff)).toNat
  | uint => exact transCmp_on fun a : List UInt8 => (int32At (a.drop iOff)).toNat
  | long => exact transCmp_on fun a : List UInt8 => (int64At (a.drop iOff)).toInt
  | ulong => exact transCmp_on fun a : List UInt8 => (int64At (a.drop iOff)).toNat
  | str => exact transCmp_on fun a : List UInt8 => cstr ((a.drop iOff).take iLen)
  | float => exact transCmp_on fun _ : List UInt8 => ()
  | bytes => exact transCmp_on fun _ : List UInt8 => ()

instance (k : RItem × RSort) : Std.TransCmp (keyCompare k) := by
  unfold keyCompare
  split
  case isTrue => exact Std.TransCmp.opposite
  case isFalse => infer_instance

instance (keys : List (RItem × RSort)) : Std.TransCmp (keysCompare keys) := by
  induction keys with
  | nil => exact transCmp_on fun _ : List UInt8 => ()
  | cons k keys ih => exact inferInstanceAs (Std.TransCmp (compareLex (keyCompare k) _))

variable {k : RItem × RSort} {keys : List (RItem × RSort)} {data1 data2 : List UInt8}

theorem keyCompare_eq_iff : keyCompare k data1 data2 = .eq ↔ k.1.compare data1 data2 = .eq := by
  unfold keyCompare
  split
  · exact Std.OrientedCmp.eq_comm
  · rfl

theorem keysCompare_cons_eq (h : keyCompare k data1 data2 = .eq) :
    keysCompare (k :: keys) data1 data2 = keysCompare keys data1 data2 := by
  rw [keysCompare, compareLex, h]
  rfl

theorem keysCompare_cons_ne (h : keyCompare k data1 data2 ≠ .eq) :
    keysCompare (k :: keys) data1 data2 = keyCompare k data1 data2 := by
  rw [keysCompare, compareLex]
  cases hk : keyCompare k data1 data2 with
  | lt => rfl
  | gt => rfl
  | eq => exact absurd hk h

/-- What `db_compare` says of the order of the keys -/
theorem signs_keys (hsort : ∀ k ∈ keys, k.1.iAttr.sortable = true) :
    Signs (dbCompare (keys.map sorterOf)) (keysCompare keys) (KeysNear keys) := by
  induction keys with
  | nil => exact signs_of_sign fun _ _ => rfl
  | cons k keys ih =>
      have hk := signs_key (hsort k List.mem_cons_self)
      have ih := ih fun k hk => hsort k (List.mem_cons_of_mem _ hk)
      have heq {a b : List UInt8} (h : keyCompare k a b = .eq) :
          dbCompare ((k :: keys).map sorterOf) a b = dbCompare (keys.map sorterOf) a b :=
        if_neg (not_not.mpr ((hk.zero a b).mpr h))
      have hne {a b : List UInt8} (h : keyCompare k a b ≠ .eq) :
          dbCompare ((k :: keys).map sorterOf) a b = (sorterOf k).comp a b :=
        if_pos ((hk.zero a b).not.mpr h)
      constructor
      · intro a b
        by_cases h : keyCompare k a b = .eq
        · rw [heq h, keysCompare_cons_eq h]
          exact ih.zero a b
        · rw [hne h, keysCompare_cons_ne h]
          exact hk.zero a b
      · intro a b
        unfold SignOf KeysNear
        by_cases h : keyCompare k a b = .eq
        · have h' := Std.OrientedCmp.eq_symm h
          rw [heq h, heq h', keysCompare_cons_eq h, keysCompare_cons_eq h',
            if_pos (keyCompare_eq_iff.mp h)]
          exact ih.signs a b
        · have h' : keyCompare k b a ≠ .eq := fun h' => h (Std.OrientedCmp.eq_symm h')
          rw [hne h, hne h', keysCompare_cons_ne h, keysCompare_cons_ne h',
            if_neg (keyCompare_eq_iff.not.mp h)]
          exact hk.signs a b

/-- Every sort puts records in the order of the keys if of any two of them the first
key in which they differ has near values, and only then. -/
theorem sorts_iff_near (hsort : ∀ k ∈ keys, k.1.iAttr.sortable = true) {f : α → List UInt8}
    {l : List α} :
    (∀ sort, Sorts sort → (sort (fun a b => dbCompare (keys.map sorterOf) (f a) (f b)) l).Pairwise
        fun a b => (keysCompare keys (f a) (f b)).isLE) ↔
      ∀ a ∈ l, ∀ b ∈ l, KeysNear keys (f a) (f b) := by
  have hkeys := signs_keys hsort
  have : Std.TransCmp fun a b : α => keysCompare keys (f a) (f b) := {
    eq_swap := Std.OrientedCmp.eq_swap
    isLE_trans := Std.TransCmp.isLE_trans }
  rw [sorts_iff_signs fun a _ b _ => hkeys.zero (f a) (f b)]
  constructor
  · intro h a ha b hb
    exact (hkeys.signs (f a) (f b)).mp ⟨h a ha b hb, h b hb a ha⟩
  · intro h a ha b hb
    exact ((hkeys.signs (f a) (f b)).mpr (h a ha b hb)).1

end PaxosSolutions.XjPing
