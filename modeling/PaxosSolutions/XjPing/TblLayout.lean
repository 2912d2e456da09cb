import PaxosSolutions.XjPing.TblFile
import Mathlib.Data.List.GetD
import Mathlib.Algebra.Order.BigOperators.Group.List

/-!
# The layout of a table file

What a table file has to be for its table: the table is opened as it was created, each
record has its place behind the head, the items and the tables it depends on, and what is
stored is loaded. When this is so.
-/
namespace PaxosSolutions.XjPing.TblFile
open Lib NWGadget

/-! ### The table that a file is for -/

/-- What the file of a table keeps: the head that is updated, and the bytes of the records -/
structure TblView where
  modified : ℤ
  used : ℤ
  data : List UInt8

namespace TblArgs
variable (T : TblArgs)

/-- The size of a record -/
def recSize : ℤ := sizeofRHead + (T.items.map RItem.iSize).sum

/-- The size of the records -/
def dataSize : ℕ := (T.recNum * T.recSize).toNat

/-- The table as it is created -/
def created : TblView := ⟨T.modified, 0, List.replicate T.dataSize 0⟩

/-- What a call changes of the table -/
def viewStep (v : TblView) : TblOp → TblView
  | .store s n bufp => { v with
      data := v.data.take (s * T.recSize).toNat ++ bufp ++ v.data.drop ((s + n) * T.recSize).toNat }
  | .update modified recOriUsed _ => { v with
      modified := modified
      used := recOriUsed }
  | .reopen => v

def view (ops : List TblOp) : TblView := ops.foldl T.viewStep T.created

/-- A call that a table can get: the records are its own, the buffer is theirs. -/
def OpOk : TblOp → Prop
  | .store s n bufp => 0 ≤ s ∧ 0 < n ∧ s + n ≤ T.recNum ∧ (bufp.length : ℤ) = n * T.recSize
  | .update modified recOriUsed _ =>
      -2 ^ 63 ≤ modified ∧ modified < 2 ^ 63 ∧ 0 ≤ recOriUsed ∧ recOriUsed ≤ T.recNum
  | .reopen => True

/-- The table as it is to be opened -/
def opened (v : TblView) : MyTbl where
  tType := T.type
  tModified := v.modified
  tRecNum := T.recNum
  tRecUsed := v.used
  tRecOriUsed := v.used
  tRecSize := T.recSize
  tScm := T.itemsSet
  tDepend := T.depends
  mDataOff := int32 (32 + T.items.length * sizeofRItem + T.depends.length * sizeofRTblMod)

/-- The areas of the file before its records, as they are written at the creation and, of
the tables it depends on, at an update -/
def areas : List (ℤ × ℤ) :=
  let dependOff := (T.opened T.created).dependOff
  [(0, 24), (24, dependOff), (dependOff, (T.opened T.created).dataOff)] ++
    if T.depends = [] then []
    else [(dependOff, dependOff + sizeofRTblList + sizeofRTblMod * (T.depends.length - 1))]

/-- The bytes of a record in the file -/
def place (s : ℤ) : ℤ × ℤ :=
  ((T.opened T.created).recOff s, (T.opened T.created).recOff s + T.recSize)

end TblArgs

/-- Two ranges of bytes have none in common. -/
def Apart (a b : ℤ × ℤ) : Prop := a.2 ≤ b.1 ∨ b.2 ≤ a.1

/-- The file is right for its table: the records have places of their own, which are kept
by the cut of an update, and after any calls the table is opened as it is, and its records
are loaded as they were stored. -/
structure LayoutRight (T : TblArgs) : Prop where
  places : ∀ s, 0 ≤ s → s < T.recNum → 0 ≤ (T.place s).1 ∧ ∀ a ∈ T.areas, Apart a (T.place s)
  apart : ∀ s t, 0 ≤ s → s < T.recNum → 0 ≤ t → t < T.recNum → s ≠ t → Apart (T.place s) (T.place t)
  kept : ∀ s, 0 ≤ s → s < T.recNum → (T.place s).2 ≤ (T.opened T.created).updateLen
  calls : ∀ junk ops, (∀ op ∈ ops, T.OpOk op) → ∃ st, tblRun junk T ops = .ok st ∧
    TBL_OPEN junk st.file = .ok (T.opened (T.view ops)) ∧
    ∀ s n, 0 ≤ s → 0 < n → s + n ≤ T.recNum → myTblLoad st.md s n st.file =
      .ok (((T.view ops).data.drop (s * T.recSize).toNat).take (n * T.recSize).toNat)

/-- The table depends on no other, and its file, less the 16 bytes that are not counted, is
shorter than 2 GiB. Without records it is enough that its length is positive as an `int`. -/
def TblArgs.Fits (T : TblArgs) : Prop :=
  T.depends = [] ∧ 0 ≤ T.recNum ∧
    if T.recNum = 0 then 0 < int32 (16 + T.items.length * sizeofRItem)
    else 16 + T.items.length * sizeofRItem + T.recNum * T.recSize < 2 ^ 31

/-! ### Numbers and items in the file -/

section Codec
variable {x : ℤ} {it : RItem}

theorem longBytes_length : (longBytes x).length = 8 := leBytes_length

theorem bytesLong_longBytes (hlo : -2 ^ 63 ≤ x) (hhi : x < 2 ^ 63) : bytesLong (longBytes x) = x := by
  unfold bytesLong longBytes
  rw [ofDigits_leBytes]
  have hmod : (x % 2 ^ 64).toNat % 256 ^ 8 = (x % 2 ^ 64).toNat := Nat.mod_eq_of_lt (by omega)
  have hnat : ((x % 2 ^ 64).toNat : ℤ) = x % 2 ^ 64 := Int.toNat_of_nonneg (by omega)
  have hemod : (x % 2 ^ 64).bmod (2 ^ 64) = x.bmod (2 ^ 64) := Int.emod_bmod x (2 ^ 64)
  rw [hmod, hnat, hemod]
  exact Int.bmod_eq_of_le (by omega) (by omega)

theorem RItem.bytes_length (it : RItem) : it.bytes.length = sizeofRItem := by
  simp [RItem.bytes]

theorem u64_of_range (hlo : 0 ≤ x) (hhi : x < 2 ^ 63) : u64 x = x.toNat := by
  have hmod : x % 2 ^ 64 = x := Int.emod_eq_of_lt hlo (by omega)
  unfold u64
  rw [hmod]

/-- The bytes of a name in a memory -/
theorem ofFn_part {k n : ℕ} (v : Vector UInt8 k) (pre post : List UInt8) (hn : n = pre.length) :
    (Vector.ofFn fun i : Fin k => (pre ++ (v.toList ++ post)).getD (n + i) 0) = v := by
  refine Vector.ext fun i hi => ?_
  rw [Vector.getElem_ofFn, List.getD_eq_getElem?_getD, List.getElem?_append_right (by omega), hn,
    Nat.add_sub_cancel_left, List.getElem?_append_left (by simpa using hi)]
  simp [hi]

theorem ofFn_front {k : ℕ} (v : Vector UInt8 k) (post : List UInt8) :
    (Vector.ofFn fun i : Fin k => (v.toList ++ post).getD i 0) = v := by
  have hpart := ofFn_part v [] post rfl
  simpa only [List.nil_append, List.length_nil, Nat.zero_add] using hpart

theorem modOf_bytes (d : RTblMod) : modOf d.bytes.toList = d := by
  have hpart := ofFn_front d.bytes []
  rw [List.append_nil] at hpart
  exact congrArg RTblMod.mk hpart

/-- The numbers of an item are an `int` each. -/
def RItem.Ints (it : RItem) : Prop :=
  ∀ x ∈ [it.iInd, it.iAttr, it.iLen, it.iSize, it.iOff, it.iFlag], -2 ^ 31 ≤ x ∧ x < 2 ^ 31

/-- One of a row of numbers -/
theorem int_at (pre : List UInt8) (xs : List ℤ) (k n : ℕ) (hn : n = pre.length + 4 * k) (hk : k < xs.length) :
    ((pre ++ xs.flatMap intBytes).drop n).take 4 = intBytes (xs.getD k 0) := by
  rw [hn, List.drop_length_add_append]
  clear hn
  induction xs generalizing k with
  | nil => simp at hk
  | cons x xs ih =>
      cases k with
      | zero => simp [List.take_append]
      | succ k =>
          have hdrop : ((x :: xs).flatMap intBytes).drop (4 * (k + 1)) =
              (xs.flatMap intBytes).drop (4 * k) := by
            have hlen : 4 * (k + 1) = (intBytes x).length + 4 * k := by
              rw [intBytes_length]
              omega
            rw [List.flatMap_cons, hlen, List.drop_length_add_append]
          rw [hdrop, List.getD_cons_succ]
          exact ih k (by simpa using hk)

theorem RItem.bytes_eq (it : RItem) : it.bytes = it.iName.toList ++ (it.iType.toList ++
    [it.iInd, it.iAttr, it.iLen, it.iSize, it.iOff, it.iFlag].flatMap intBytes) := by
  simp only [RItem.bytes, List.flatMap_cons, List.flatMap_nil, List.append_nil]

theorem itemOf_bytes (h : it.Ints) : itemOf it.bytes = it := by
  have hname := ofFn_front it.iName (it.iType.toList ++
    [it.iInd, it.iAttr, it.iLen, it.iSize, it.iOff, it.iFlag].flatMap intBytes)
  have htype := ofFn_part it.iType it.iName.toList
    ([it.iInd, it.iAttr, it.iLen, it.iSize, it.iOff, it.iFlag].flatMap intBytes) Vector.length_toList.symm
  rw [← RItem.bytes_eq] at htype
  rw [← RItem.bytes_eq] at hname
  have hint : ∀ k n, n = 160 + 4 * k → k < 6 → bytesInt ((it.bytes.drop n).take 4) =
      [it.iInd, it.iAttr, it.iLen, it.iSize, it.iOff, it.iFlag].getD k 0 := by
    intro k n hn hk
    have hmem : [it.iInd, it.iAttr, it.iLen, it.iSize, it.iOff, it.iFlag].getD k 0 ∈
        [it.iInd, it.iAttr, it.iLen, it.iSize, it.iOff, it.iFlag] := by
      rw [List.getD_eq_getElem _ 0 hk]
      exact List.getElem_mem hk
    obtain ⟨hlo, hhi⟩ := h _ hmem
    have hat := int_at (it.iName.toList ++ it.iType.toList)
      [it.iInd, it.iAttr, it.iLen, it.iSize, it.iOff, it.iFlag] k n (by simpa using hn) hk
    rw [List.append_assoc, ← RItem.bytes_eq] at hat
    rw [hat, bytesInt_intBytes hlo hhi]
  have hfields : itemOf it.bytes = { it with } := by
    unfold itemOf
    rw [hname, htype, hint 0 160 rfl (by decide), hint 1 164 rfl (by decide), hint 2 168 rfl (by decide),
      hint 3 172 rfl (by decide), hint 4 176 rfl (by decide), hint 5 180 rfl (by decide)]
    rfl
  exact hfields

end Codec

/-! ### The offsets of the items -/

section Offsets
variable {off : ℤ} {items : List RItem}

theorem setOffs_sizes (off : ℤ) (items : List RItem) :
    (setOffs off items).map RItem.iSize = items.map RItem.iSize := by
  induction items generalizing off with
  | nil => rfl
  | cons it its ih => rw [setOffs, List.map_cons, List.map_cons, ih]

theorem setOffs_length (off : ℤ) (items : List RItem) : (setOffs off items).length = items.length := by
  have h := congrArg List.length (setOffs_sizes off items)
  simpa using h

/-- Without an overflow the size of a record is the sum of the sizes. -/
theorem sizes_fold {xs : List ℤ} (hlo : 0 ≤ off) (hxs : ∀ x ∈ xs, 0 ≤ x) (hhi : off + xs.sum < 2 ^ 31) :
    xs.foldl (fun size x => int32 (size + x)) off = off + xs.sum := by
  induction xs generalizing off with
  | nil => simp
  | cons x xs ih =>
      have hx := hxs x (List.mem_cons_self ..)
      have hrest := List.sum_nonneg fun y hy => hxs y (List.mem_cons_of_mem x hy)
      rw [List.sum_cons] at hhi ⊢
      rw [List.foldl_cons, int32_of_range (by omega) (by omega),
        ih (by omega) (fun y hy => hxs y (List.mem_cons_of_mem x hy)) (by omega)]
      omega

/-- Without an overflow the offsets are sums of sizes, and the check accepts them. -/
theorem setOffs_sound (hlo : 0 ≤ off) (hxs : ∀ x ∈ items.map RItem.iSize, 0 ≤ x)
    (hhi : off + (items.map RItem.iSize).sum < 2 ^ 31) :
    itemOffs off (setOffs off items) = some (off + (items.map RItem.iSize).sum) ∧
      ∀ it ∈ setOffs off items, (0 ≤ it.iOff ∧ it.iOff < 2 ^ 31) ∧
        ∃ it' ∈ items, it = { it' with iOff := it.iOff } := by
  induction items generalizing off with
  | nil => simp [itemOffs, setOffs]
  | cons it its ih =>
      rw [List.map_cons] at hxs hhi ⊢
      rw [List.sum_cons] at hhi ⊢
      have hit := hxs it.iSize (List.mem_cons_self ..)
      have htail : ∀ x ∈ its.map RItem.iSize, 0 ≤ x := fun x hx => hxs x (List.mem_cons_of_mem it.iSize hx)
      have hits := List.sum_nonneg htail
      have hoff : int32 (off + it.iSize) = off + it.iSize := int32_of_range (by omega) (by omega)
      obtain ⟨hcheck, hall⟩ := @ih (off + it.iSize) (by omega) htail (by omega)
      constructor
      · rw [setOffs, hoff, itemOffs, if_pos rfl, hoff, hcheck]
        congr 1
        omega
      · rw [setOffs, hoff]
        intro x hx
        rcases List.mem_cons.mp hx with rfl | hx
        · exact ⟨⟨hlo, by simpa using (by omega : off < 2 ^ 31)⟩, it, List.mem_cons_self .., rfl⟩
        · obtain ⟨hrange, it', hmem, heq⟩ := hall x hx
          exact ⟨hrange, it', List.mem_cons_of_mem it hmem, heq⟩

end Offsets

/-! ### The file of a table -/

namespace TblArgs
variable {T : TblArgs} {v : TblView} {junk : ℕ → UInt8} {body : List UInt8}

theorem sizes_nonneg (T : TblArgs) : ∀ x ∈ T.items.map RItem.iSize, 0 ≤ x := by
  intro x hx
  obtain ⟨it, hit, rfl⟩ := List.mem_map.mp hx
  exact T.sizes it hit

theorem recSize_range (T : TblArgs) : 32 ≤ T.recSize ∧ T.recSize < 2 ^ 31 := by
  have hsizes := List.sum_nonneg T.sizes_nonneg
  have hint := T.recSizeInt
  unfold recSize sizeofRHead at *
  omega

/-- The items with their places in the schema -/
def itemsIndexed (T : TblArgs) : List RItem := T.items.mapIdx fun i it => { it with iInd := i }

theorem itemsIndexed_sizes (T : TblArgs) : T.itemsIndexed.map RItem.iSize = T.items.map RItem.iSize := by
  refine List.ext_getElem (by simp [itemsIndexed]) ?_
  intro i h h'
  simp [itemsIndexed]

theorem itemsSet_length (T : TblArgs) : T.itemsSet.length = T.items.length := by
  unfold itemsSet
  rw [setOffs_length, List.length_mapIdx]

/-- The offsets of the items are right, and so is the size of a record. -/
theorem itemsSet_sound (T : TblArgs) : itemOffs sizeofRHead T.itemsSet = some T.recSize ∧
    T.itemsSet.foldl (fun size it => int32 (size + it.iSize)) (sizeofRHead : ℤ) = T.recSize := by
  have hsizes := T.itemsIndexed_sizes
  have hnonneg := T.sizes_nonneg
  have hint := T.recSizeInt
  rw [← hsizes] at hnonneg hint
  constructor
  · have hcheck := (setOffs_sound (by decide) hnonneg hint).1
    rw [hsizes] at hcheck
    exact hcheck
  · have hfold := sizes_fold (by decide) hnonneg hint
    rw [← setOffs_sizes sizeofRHead, List.foldl_map, setOffs_sizes, hsizes] at hfold
    exact hfold

/-- The items in the file have an `int` in each of their numbers. -/
theorem itemsSet_ints (T : TblArgs) : ∀ it ∈ T.itemsSet, it.Ints := by
  have hsizes := T.itemsIndexed_sizes
  have hnonneg := T.sizes_nonneg
  have hint := T.recSizeInt
  rw [← hsizes] at hnonneg hint
  intro it hit
  obtain ⟨hoff, it', hit', heq⟩ := (setOffs_sound (by decide) hnonneg hint).2 it hit
  obtain ⟨i, hi, rfl⟩ := List.mem_mapIdx.mp hit'
  have hmem := List.getElem_mem hi
  have hother := T.itemInts _ hmem
  have hnum := T.itemNumInt
  have hsum := List.sum_nonneg T.sizes_nonneg
  have hsize := List.single_le_sum T.sizes_nonneg _ (List.mem_map_of_mem hmem)
  have hsize' := T.sizes _ hmem
  have htotal := T.recSizeInt
  rw [heq]
  intro x hx
  simp only [List.mem_cons, List.not_mem_nil, or_false] at hx hother
  rcases hx with rfl | rfl | rfl | rfl | rfl | rfl
  · omega
  · exact hother _ (Or.inl rfl)
  · exact hother _ (Or.inr (Or.inl rfl))
  · omega
  · omega
  · exact hother _ (Or.inr (Or.inr rfl))

/-! ### The head, the items and the tables it depends on -/

/-- The head of the file -/
def headBytes (T : TblArgs) (v : TblView) : List UInt8 :=
  intBytes T.type ++ (longBytes v.modified ++ (intBytes T.recNum ++ (intBytes v.used ++ intBytes T.recSize)))

/-- The items as they are in the file -/
def itemBytes (T : TblArgs) : List UInt8 := intBytes T.items.length ++ T.itemsSet.flatMap RItem.bytes

/-- The tables it depends on as they are written at the creation -/
def dependBytes (T : TblArgs) : List UInt8 :=
  intBytes T.depends.length ++ T.depends.flatMap fun d => d.bytes.toList

theorem headBytes_length : (T.headBytes v).length = 24 := by
  simp [headBytes, longBytes_length]

theorem itemBytes_length (T : TblArgs) : T.itemBytes.length = 4 + T.items.length * 184 := by
  rw [itemBytes, List.length_append, intBytes_length, flatMap_length RItem.bytes_length, itemsSet_length]

theorem dependBytes_length (T : TblArgs) : T.dependBytes.length = 4 + T.depends.length * 144 := by
  rw [dependBytes, List.length_append, intBytes_length, flatMap_length fun d => Vector.length_toList]

theorem ok_bind {α β : Type} (a : α) (f : α → Except TblErr β) : (Except.ok a >>= f) = f a := rfl

theorem write_end {file bs : List UInt8} {off : ℕ} (hoff : off = file.length) (hfit : off < 2 ^ 63) :
    FileCacheWrite file off bs = .ok (file ++ bs) := by
  rw [FileCacheWrite, if_pos hfit, hoff, write_at_end]

/-- What `TBL_CREATE` writes -/
theorem create_eq (T : TblArgs) :
    TBL_CREATE T = .ok (T.headBytes T.created ++ (T.itemBytes ++ T.dependBytes)) := by
  have hitems := T.itemsSet_length
  have hnum := T.itemNumInt
  have hdeps := T.dependNumInt
  have hhead : myHeadWrite T.type T.modified T.recNum T.itemsSet [] = .ok (T.headBytes T.created, 24) := by
    unfold myHeadWrite
    rw [T.itemsSet_sound.2]
    dsimp only
    rw [write_end, ok_bind, write_end, ok_bind, write_end, ok_bind, write_end, ok_bind, write_end, ok_bind]
    · simp [headBytes, created, pure, Except.pure]
    all_goals simp [longBytes_length]
  have hitem : myItemWrite T.itemsSet (T.headBytes T.created) 24 =
      .ok (T.headBytes T.created ++ T.itemBytes, 28 + T.items.length * 184) := by
    unfold myItemWrite
    rw [write_end, ok_bind, write_end, ok_bind]
    · simp [itemBytes, hitems, pure, Except.pure]
    all_goals simp [headBytes_length]
  have hdepend : myDependWrite T.depends (T.headBytes T.created ++ T.itemBytes) (28 + T.items.length * 184) =
      .ok (T.headBytes T.created ++ (T.itemBytes ++ T.dependBytes),
        28 + T.items.length * 184 + 4 + T.depends.length * 144) := by
    unfold myDependWrite
    rw [write_end, ok_bind]
    · split_ifs with hne
      · rw [write_end, ok_bind]
        · simp [dependBytes, pure, Except.pure]
        · rw [List.length_append, List.length_append, headBytes_length, itemBytes_length, intBytes_length]
          omega
        · omega
      · have hnil : T.depends = [] := by simpa using hne
        simp [dependBytes, hnil, pure, Except.pure]
    · rw [List.length_append, headBytes_length, itemBytes_length]
      omega
    · omega
  unfold TBL_CREATE
  rw [hhead, ok_bind]
  dsimp only
  rw [hitem, ok_bind]
  dsimp only
  rw [hdepend]
  rfl

/-! ### Opening the file -/

/-- The head of a table that can be in the file -/
structure HeadOk (T : TblArgs) (v : TblView) : Prop where
  modified : -2 ^ 63 ≤ v.modified ∧ v.modified < 2 ^ 63
  used : 0 ≤ v.used ∧ v.used < 2 ^ 31

/-- The head is read as it was written. -/
theorem headRead_eq (hv : HeadOk T v) (rest : List UInt8) :
    myHeadRead junk (T.headBytes v ++ rest) =
      if v.used > T.recNum then .error .eRdbFile
      else .ok ({ T.opened v with
        tScm := []
        tDepend := []
        mDataOff := 0 }, 24) := by
  have hrange := T.recSize_range
  have hused := hv.used
  have hfile : T.headBytes v ++ rest = intBytes T.type ++ (longBytes v.modified ++ (intBytes T.recNum ++
      (intBytes v.used ++ (intBytes T.recSize ++ rest)))) := by
    simp only [headBytes, List.append_assoc]
  have htype := PartAt.here (intBytes T.type) (longBytes v.modified ++ (intBytes T.recNum ++
    (intBytes v.used ++ (intBytes T.recSize ++ rest))))
  have htime := (PartAt.here (longBytes v.modified) (intBytes T.recNum ++ (intBytes v.used ++
    (intBytes T.recSize ++ rest)))).skip (intBytes T.type) rfl
  have hnum := ((PartAt.here (intBytes T.recNum) (intBytes v.used ++ (intBytes T.recSize ++ rest))).skip
    (longBytes v.modified) rfl).skip (intBytes T.type) rfl
  have hcount := (((PartAt.here (intBytes v.used) (intBytes T.recSize ++ rest)).skip
    (intBytes T.recNum) rfl).skip (longBytes v.modified) rfl).skip (intBytes T.type) rfl
  have hsize := ((((PartAt.here (intBytes T.recSize) rest).skip (intBytes v.used) rfl).skip
    (intBytes T.recNum) rfl).skip (longBytes v.modified) rfl).skip (intBytes T.type) rfl
  rw [← hfile] at htype htime hnum hcount hsize
  simp only [intBytes_length, longBytes_length, Nat.add_zero, Nat.reduceAdd] at htype htime hnum hcount hsize
  unfold myHeadRead
  simp only
  rw [hnum.readInt T.recNumInt, hcount.readInt (by omega), htype.readInt T.typeInt,
    htime.read longBytes_length.symm, bytesLong_longBytes hv.modified.1 hv.modified.2, hsize.readInt (by omega)]
  rfl

/-- The items are read as they were written, if the size of the file is plausible. -/
theorem itemRead_eq (md : MyTbl) (used : ℤ) (hsize : md.tRecSize = T.recSize)
    (hused : md.tRecUsed = used) (rest : List UInt8) :
    myItemRead junk (T.headBytes v ++ (T.itemBytes ++ rest)) md 24 =
      if fileSize T.recSize used T.items.length > (T.headBytes v ++ (T.itemBytes ++ rest)).length ∨
          fileSize T.recSize used T.items.length ≤ 0 then .error .eRdbFile
      else .ok ({ md with tScm := T.itemsSet }, 28 + T.items.length * sizeofRItem) := by
  have hnum := T.itemNumInt
  have hcount := (PartAt.here (intBytes T.items.length) (T.itemsSet.flatMap RItem.bytes ++ rest)).skip
    (T.headBytes v) rfl
  have hitems := ((PartAt.here (T.itemsSet.flatMap RItem.bytes) rest).skip
    (intBytes T.items.length) rfl).skip (T.headBytes v) rfl
  rw [← List.append_assoc (intBytes _), ← itemBytes] at hcount hitems
  simp only [intBytes_length, headBytes_length, Nat.add_zero, Nat.reduceAdd] at hcount hitems
  have hread : (List.range T.itemsSet.length).map (fun i => itemOf (readTo junk
      (T.headBytes v ++ (T.itemBytes ++ rest)) (28 + i * sizeofRItem) sizeofRItem)) = T.itemsSet :=
    readTo_parts RItem.bytes_length T.itemsSet (fun it hit => itemOf_bytes (T.itemsSet_ints it hit)) hitems
  rw [itemsSet_length] at hread
  unfold myItemRead
  simp only
  rw [hcount.readInt (by omega), Int.toNat_natCast, hread, hsize, hused, T.itemsSet_sound.1,
    if_neg (c := _ ≠ _) (by simp), if_neg (c := _ < (0 : ℤ)) (by omega)]

/-- The tables it depends on are read as they were created. -/
theorem dependRead_eq (junk : ℕ → UInt8) (md : MyTbl) {pre : List UInt8} {off : ℕ}
    (hoff : off = pre.length) (rest : List UInt8) :
    myDependRead junk (pre ++ (T.dependBytes ++ rest)) md off = { md with tDepend := T.depends } := by
  have hnum := T.dependNumInt
  have hcount := (PartAt.here (intBytes T.depends.length)
    ((T.depends.flatMap fun d => d.bytes.toList) ++ rest)).skip pre hoff
  have hdepends := ((PartAt.here (T.depends.flatMap fun d => d.bytes.toList) rest).skip
    (intBytes T.depends.length) rfl).skip pre rfl
  rw [← List.append_assoc (intBytes _), ← dependBytes] at hcount hdepends
  have hread : (List.range T.depends.length).map (fun i => modOf (readTo junk
      (pre ++ (T.dependBytes ++ rest)) (off + 4 + i * sizeofRTblMod) sizeofRTblMod)) = T.depends :=
    readTo_parts (fun d => Vector.length_toList) T.depends (fun d _ => modOf_bytes d) (by
      rw [hoff]
      exact hdepends)
  unfold myDependRead dependsAt
  rw [hcount.readInt (by omega), Int.toNat_natCast, hread]

/-- When a table is opened from its file, and that it is opened as it is then -/
theorem open_eq (junk : ℕ → UInt8) (hv : HeadOk T v) (hle : v.used ≤ T.recNum) (body : List UInt8) :
    TBL_OPEN junk (T.headBytes v ++ (T.itemBytes ++ (T.dependBytes ++ body))) =
      if fileSize T.recSize v.used T.items.length >
          (T.headBytes v ++ (T.itemBytes ++ (T.dependBytes ++ body))).length ∨
          fileSize T.recSize v.used T.items.length ≤ 0 then .error .eRdbFile
      else .ok (T.opened v) := by
  have hitems := T.itemsSet_length
  have hoff : 28 + T.items.length * sizeofRItem = (T.headBytes v ++ T.itemBytes).length := by
    rw [List.length_append, headBytes_length, itemBytes_length, sizeofRItem]
    omega
  unfold TBL_OPEN
  rw [headRead_eq hv, if_neg (by omega), ok_bind]
  dsimp only
  rw [itemRead_eq _ v.used rfl rfl]
  by_cases hsize : fileSize T.recSize v.used T.items.length >
      (T.headBytes v ++ (T.itemBytes ++ (T.dependBytes ++ body))).length ∨
      fileSize T.recSize v.used T.items.length ≤ 0
  · rw [if_pos hsize, if_pos hsize]
    rfl
  · rw [if_neg hsize, if_neg hsize, ok_bind]
    have hdepend := fun md => dependRead_eq (T := T) junk md hoff body
    simp only [List.append_assoc] at hdepend
    simp only [hdepend]
    unfold opened MyTbl.dataOff MyTbl.dependOff
    simp only [hitems]
    have hdata : (28 + T.items.length * sizeofRItem + 4 + T.depends.length * sizeofRTblMod : ℤ) =
        32 + T.items.length * sizeofRItem + T.depends.length * sizeofRTblMod := by omega
    rw [hdata]
    rfl

end TblArgs

end PaxosSolutions.XjPing.TblFile
