import PaxosSolutions.XjPing.TblLayoutKept
import Mathlib.Data.Nat.Find

/-!
# Which table files are right

A table with records that depends on another has its first record overwritten by an update,
and a product beyond an `int` makes a file that is not opened again or puts a record before
its place. What a file that is right has.
-/
namespace PaxosSolutions.XjPing.TblFile
open Lib NWGadget

namespace TblArgs
variable {T : TblArgs} {v : TblView} {junk : ℕ → UInt8}

theorem error_bind {α β : Type} (e : TblErr) (f : α → Except TblErr β) :
    (Except.error e >>= f) = .error e := rfl

theorem int32_le {x : ℤ} (hx : 0 ≤ x) : int32 x ≤ x := by
  obtain ⟨q, hq, hlo, hhi⟩ := int32_spec x
  omega

theorem int32_int32 (x : ℤ) : int32 (int32 x) = int32 x := Int.bmod_bmod

theorem areas_eq (T : TblArgs) : T.areas =
    [(0, 24), (24, (28 + T.items.length * 184 : ℤ)),
      ((28 + T.items.length * 184 : ℤ), (32 + T.items.length * 184 + T.depends.length * 144 : ℤ))] ++
    if T.depends = [] then []
    else [((28 + T.items.length * 184 : ℤ), (36 + T.items.length * 184 + T.depends.length * 144 : ℤ))] := by
  have hdata : (28 + T.items.length * 184 + 4 + T.depends.length * 144 : ℤ) =
      32 + T.items.length * 184 + T.depends.length * 144 := by omega
  have hupd : (28 + T.items.length * 184 + 152 + 144 * (T.depends.length - 1) : ℤ) =
      36 + T.items.length * 184 + T.depends.length * 144 := by omega
  unfold areas MyTbl.dataOff MyTbl.dependOff opened sizeofRTblList
  simp only [itemsSet_length, sizeofRItem, sizeofRTblMod, Nat.cast_ofNat, Nat.reduceAdd, hdata, hupd]

/-- The first record of a right file is at the end of the head, the items and the empty list
of tables. -/
theorem first_place (h : LayoutRight T) (hnum : 0 < T.recNum) :
    T.depends = [] ∧ (32 + T.items.length * 184 : ℤ) < 2 ^ 31 ∧
      (T.place 0).2 = 32 + T.items.length * 184 + T.recSize := by
  obtain ⟨hlo, hapart⟩ := h.places 0 (Int.le_refl 0) hnum
  obtain ⟨hrec, -⟩ := T.recSize_range
  have hplace : T.place 0 = (int32 (32 + T.items.length * 184 + T.depends.length * 144),
      int32 (32 + T.items.length * 184 + T.depends.length * 144) + T.recSize) := by
    unfold place MyTbl.recOff opened
    simp only [Int.zero_mul, sizeofRItem, sizeofRTblMod, Nat.cast_ofNat]
    rw [int32_of_range (x := 0) (by omega) (by omega), Int.add_zero, int32_int32]
  have hle := int32_le (x := 32 + T.items.length * 184 + T.depends.length * 144) (by omega)
  have hlt := int32_lt (32 + T.items.length * 184 + T.depends.length * 144)
  rw [hplace] at hlo hapart ⊢
  generalize int32 (32 + T.items.length * 184 + T.depends.length * 144) = o at *
  rw [areas_eq] at hapart
  have hhead := hapart (0, 24) (by simp)
  have hitems := hapart (24, 28 + T.items.length * 184) (by simp)
  have hdata := hapart (28 + T.items.length * 184, 32 + T.items.length * 184 + T.depends.length * 144) (by simp)
  unfold Apart at hhead hitems hdata
  simp only at hlo hhead hitems hdata
  have hnil : T.depends = [] := by
    by_contra hne
    have hupd := hapart (28 + T.items.length * 184, 36 + T.items.length * 184 + T.depends.length * 144)
      (by simp [hne])
    unfold Apart at hupd
    simp only at hupd
    omega
  rw [hnil] at hdata hle
  simp only [List.length_nil, Nat.cast_zero, Int.zero_mul, Int.add_zero] at hdata hle
  refine ⟨hnil, by omega, ?_⟩
  simp only
  omega

/-- A right file is opened after it is created. -/
theorem right_opens (junk : ℕ → UInt8) (h : LayoutRight T) :
    0 ≤ T.recNum ∧ 0 < fileSize T.recSize 0 T.items.length ∧
      TBL_OPEN junk (T.fileBytes T.created []) = .ok (T.opened T.created) := by
  obtain ⟨st, hrun, hopen, -⟩ := h.calls junk [] (by simp)
  have hcreate : TBL_CREATE T = .ok (T.fileBytes T.created []) := by
    rw [create_eq, fileBytes, List.append_nil]
  have hhead : HeadOk T T.created := ⟨T.modifiedLong, Int.le_refl 0, by
    change (0 : ℤ) < 2 ^ 31
    omega⟩
  unfold tblRun at hrun
  rw [hcreate, ok_bind] at hrun
  cases hnew : TBL_OPEN junk (T.fileBytes T.created []) with
  | error e =>
      rw [hnew, error_bind] at hrun
      cases hrun
  | ok md =>
      rw [hnew, ok_bind] at hrun
      obtain rfl := Except.ok.inj hrun
      rw [hnew] at hopen
      have hle : 0 ≤ T.recNum := by
        by_contra hneg
        unfold TBL_OPEN at hnew
        rw [fileBytes, headRead_eq hhead, if_pos (by change (0 : ℤ) > T.recNum; omega), error_bind] at hnew
        cases hnew
      have hsize := open_eq junk hhead hle []
      rw [← fileBytes, hnew] at hsize
      split_ifs at hsize with hbad
      refine ⟨hle, ?_, hopen⟩
      change ¬(fileSize T.recSize 0 T.items.length > _ ∨ fileSize T.recSize 0 T.items.length ≤ 0) at hbad
      omega

/-- An update of a right file after its creation -/
theorem right_updates (junk : ℕ → UInt8) (h : LayoutRight T) {modified used : ℤ}
    (hlo : -2 ^ 63 ≤ modified) (hhi : modified < 2 ^ 63) (hused : 0 ≤ used) (hle : used ≤ T.recNum)
    (pad : Vector UInt8 4) :
    ∃ file, myHeadUpdate pad { T.opened T.created with
        tModified := modified
        tRecOriUsed := used } (T.fileBytes T.created []) = .ok file ∧
      TBL_OPEN junk file = .ok (T.opened ⟨modified, used, T.created.data⟩) := by
  obtain ⟨-, -, hnew⟩ := right_opens junk h
  have hops : ∀ op ∈ [TblOp.update modified used pad], T.OpOk op := by
    intro op hop
    obtain rfl := List.mem_singleton.mp hop
    exact ⟨hlo, hhi, hused, hle⟩
  obtain ⟨st, hrun, hopen, -⟩ := h.calls junk _ hops
  have hcreate : TBL_CREATE T = .ok (T.fileBytes T.created []) := by
    rw [create_eq, fileBytes, List.append_nil]
  unfold tblRun run at hrun
  rw [hcreate, ok_bind, hnew, ok_bind] at hrun
  unfold tblStep at hrun
  simp only at hrun
  cases hupd : myHeadUpdate pad { T.opened T.created with
      tModified := modified
      tRecOriUsed := used } (T.fileBytes T.created []) with
  | error e =>
      rw [hupd] at hrun
      cases hrun
  | ok file =>
      rw [hupd] at hrun
      obtain rfl := Except.ok.inj hrun
      exact ⟨file, rfl, hopen⟩

/-- The tables that an open table depends on are read behind its items. -/
theorem open_depend (hv : HeadOk T v) {rest : List UInt8} {md : MyTbl}
    (hopen : TBL_OPEN junk (T.headBytes v ++ (T.itemBytes ++ rest)) = .ok md) :
    md.tDepend =
      dependsAt junk (T.headBytes v ++ (T.itemBytes ++ rest)) (28 + T.items.length * sizeofRItem) := by
  unfold TBL_OPEN at hopen
  rw [headRead_eq hv] at hopen
  split_ifs at hopen with hgt
  · cases hopen
  · rw [ok_bind] at hopen
    dsimp only at hopen
    rw [itemRead_eq _ v.used rfl rfl] at hopen
    split_ifs at hopen with hsize
    · cases hopen
    · rw [ok_bind] at hopen
      obtain rfl := Except.ok.inj hopen
      simp only [myDependRead]

theorem modOf_first (mem : List UInt8) : (modOf mem).bytes.toList.getD 0 0 = mem.getD 0 0 := by
  simp [modOf, List.getD_eq_getElem?_getD]

/-- The first byte that is read of the tables, where a list was written as it is in memory -/
theorem padded_depend (junk : ℕ → UInt8) {pre pad entries : List UInt8} {n off : ℕ} (hn : 0 < n)
    (hint : n < 2 ^ 31) (hpad : pad.length = 4) (hentries : entries.length = n * 144)
    (hoff : off = pre.length) :
    ((dependsAt junk (pre ++ (intBytes n ++ (pad ++ entries).take (n * 144))) off).head?.map fun d =>
      d.bytes.toList.getD 0 0) = some (pad.getD 0 0) := by
  have hcount := (PartAt.here (intBytes n) ((pad ++ entries).take (n * 144))).skip pre hoff
  obtain ⟨k, rfl⟩ : ∃ k, n = k + 1 := ⟨n - 1, by omega⟩
  have hlen : ((pad ++ entries).take ((k + 1) * 144)).length = (k + 1) * 144 := by
    rw [List.length_take, List.length_append, hpad, hentries]
    omega
  have hin : off + 4 + 0 < (pre ++ (intBytes (k + 1 : ℕ) ++ (pad ++ entries).take ((k + 1) * 144))).length := by
    rw [List.length_append, List.length_append, intBytes_length, hlen]
    omega
  have hat : (pre ++ (intBytes (k + 1 : ℕ) ++ (pad ++ entries).take ((k + 1) * 144))).getD (off + 4 + 0) 0 =
      pad.getD 0 0 := by
    rw [hoff, List.getD_eq_getElem?_getD, List.getElem?_append_right (by omega),
      List.getElem?_append_right (by rw [intBytes_length]; omega), List.getElem?_take_of_lt (by
        rw [intBytes_length]
        omega), List.getElem?_append_left (by
        rw [intBytes_length]
        omega), List.getD_eq_getElem?_getD, intBytes_length]
    congr 2
    omega
  unfold dependsAt
  rw [hcount.readInt (by omega), Int.toNat_natCast, List.range_succ_eq_map, List.map_cons,
    List.head?_cons, Option.map_some, modOf_first, Nat.zero_mul, Nat.add_zero, readTo_getD (by decide) hin, hat]

theorem entries_length (T : TblArgs) :
    (T.depends.flatMap fun d => d.bytes.toList).length = T.depends.length * 144 :=
  flatMap_length (fun _ => Vector.length_toList) T.depends

/-- What an update writes of the tables that a table depends on -/
theorem update_padded (T : TblArgs) (modified used : ℤ) (pad : Vector UInt8 4) (hne : T.depends ≠ [])
    (hnum : T.recNum = 0) :
    myHeadUpdate pad { T.opened T.created with
        tModified := modified
        tRecOriUsed := used } (T.fileBytes T.created []) =
      .ok (T.headBytes ⟨modified, used, T.created.data⟩ ++ (T.itemBytes ++ (intBytes T.depends.length ++
        (pad.toList ++ T.depends.flatMap fun d => d.bytes.toList).take (T.depends.length * 144)))) := by
  have hmem := InMemory.opened T T.created
  have hint := T.itemNumInt
  have hint' := T.dependNumInt
  have hpos := List.length_pos_of_ne_nil hne
  have hentries := T.entries_length
  have hoff : u64 (T.opened T.created).dependOff = (T.headBytes ⟨modified, used, T.created.data⟩ ++
      T.itemBytes).length := by
    unfold MyTbl.dependOff
    rw [hmem.scm, itemsSet_length, u64_of_range (by unfold sizeofRItem; omega) (by unfold sizeofRItem; omega),
      List.length_append, headBytes_length, itemBytes_length, sizeofRItem]
    omega
  have hcut : u64 (T.opened T.created).updateLen = 32 + T.items.length * 184 + T.depends.length * 144 := by
    have hlen : (T.opened T.created).updateLen = 32 + T.items.length * 184 + T.depends.length * 144 := by
      unfold MyTbl.updateLen MyTbl.dataOff MyTbl.dependOff
      rw [hmem.scm, hmem.depend, hmem.num, hnum, Int.mul_zero, itemsSet_length,
        int32_of_range (x := 0) (by omega) (by omega), sizeofRItem, sizeofRTblMod]
      omega
    rw [hlen, u64_of_range (by omega) (by omega)]
    omega
  have hwrite : FileCacheWrite (T.fileBytes ⟨modified, used, T.created.data⟩ [])
      (u64 (T.opened T.created).dependOff)
      (intBytes T.depends.length ++ (pad.toList ++ T.depends.flatMap fun d => d.bytes.toList)) =
      .ok (T.headBytes ⟨modified, used, T.created.data⟩ ++ T.itemBytes ++
        (intBytes T.depends.length ++ (pad.toList ++ T.depends.flatMap fun d => d.bytes.toList))) := by
    have hfit : u64 (T.opened T.created).dependOff < 2 ^ 63 := by
      rw [hoff, List.length_append, headBytes_length, itemBytes_length]
      omega
    have hlong : T.dependBytes.length ≤
        (intBytes T.depends.length ++ (pad.toList ++ T.depends.flatMap fun d => d.bytes.toList)).length := by
      rw [dependBytes_length, List.length_append, List.length_append, intBytes_length, hentries]
      omega
    rw [FileCacheWrite, if_pos hfit, hoff, fileBytes, List.append_nil, ← List.append_assoc,
      File.write_end hlong]
  have hwrites := headWrite_eq (T := T) T.created modified used
    (T.itemBytes ++ (T.dependBytes ++ [])) fun file => do
    let file ← FileCacheWrite file (u64 (T.opened T.created).dependOff)
      (intBytes T.depends.length ++ (pad.toList ++ T.depends.flatMap fun d => d.bytes.toList))
    FileCacheTruncate file (u64 (T.opened T.created).updateLen)
  have hkeep : MyTbl.updateLen { T.opened T.created with
      tModified := modified
      tRecOriUsed := used } = (T.opened T.created).updateLen := rfl
  have hsplit : 32 + T.items.length * 184 + T.depends.length * 144 =
      (T.headBytes ⟨modified, used, T.created.data⟩ ++ T.itemBytes).length +
        ((intBytes (T.depends.length : ℤ)).length + T.depends.length * 144) := by
    rw [List.length_append, headBytes_length, itemBytes_length, intBytes_length]
    omega
  have hgap : 32 + T.items.length * 184 + T.depends.length * 144 -
      (T.headBytes ⟨modified, used, T.created.data⟩ ++ T.itemBytes ++ (intBytes T.depends.length ++
        (pad.toList ++ T.depends.flatMap fun d => d.bytes.toList))).length = 0 := by
    simp only [List.length_append, headBytes_length, itemBytes_length, intBytes_length, hentries,
      Vector.length_toList]
    omega
  have htrunc : FileCacheTruncate (T.headBytes ⟨modified, used, T.created.data⟩ ++ T.itemBytes ++
      (intBytes T.depends.length ++ (pad.toList ++ T.depends.flatMap fun d => d.bytes.toList)))
      (u64 (T.opened T.created).updateLen) =
      .ok (T.headBytes ⟨modified, used, T.created.data⟩ ++ (T.itemBytes ++ (intBytes T.depends.length ++
        (pad.toList ++ T.depends.flatMap fun d => d.bytes.toList).take (T.depends.length * 144)))) := by
    rw [FileCacheTruncate, if_pos (by rw [hcut]; omega), hcut, hgap, hsplit, List.take_length_add_append,
      List.take_length_add_append, List.replicate_zero, List.append_nil, List.append_assoc]
  rw [← fileBytes, ← fileBytes, hwrite, ok_bind, htrunc] at hwrites
  rw [← hwrites, myHeadUpdate, hkeep]
  simp only [hmem.num, hmem.depend, ne_eq, hne, not_false_eq_true, if_true]
  rfl

/-- A right file is one of a table that depends on no other. -/
theorem right_alone (h : LayoutRight T) : T.depends = [] := by
  obtain ⟨hnum, -⟩ := right_opens (fun _ => 0) h
  by_cases hzero : T.recNum = 0
  · by_contra hne
    obtain ⟨d, ds, hdep⟩ := List.exists_cons_of_ne_nil hne
    -- the four bytes differ from the first ones of the entry
    obtain ⟨file, hupd, hopen⟩ := right_updates (fun _ => 0) h T.modifiedLong.1 T.modifiedLong.2
      (Int.le_refl 0) (by omega) (Vector.replicate 4 (d.bytes.toList.getD 0 0 + 1))
    rw [update_padded T _ _ _ hne hzero] at hupd
    obtain rfl := Except.ok.inj hupd
    have hread := open_depend ⟨T.modifiedLong, by
      simp only
      omega⟩ hopen
    have hoff : 28 + T.items.length * sizeofRItem =
        (T.headBytes ⟨T.modified, 0, T.created.data⟩ ++ T.itemBytes).length := by
      rw [List.length_append, headBytes_length, itemBytes_length, sizeofRItem]
      omega
    have hpad : (Vector.replicate 4 (d.bytes.toList.getD 0 0 + 1)).toList.length = 4 := Vector.length_toList
    have hfirst := padded_depend (fun _ => 0) (List.length_pos_of_ne_nil hne) T.dependNumInt hpad
      T.entries_length hoff
    rw [List.append_assoc, ← hread] at hfirst
    simp only [opened, hdep, List.head?_cons, Option.map_some, Option.some.injEq] at hfirst
    generalize d.bytes.toList.getD 0 0 = x at hfirst
    have hnext : x = x + 1 := hfirst
    exact absurd hnext (by simp)
  · exact (first_place h (by omega)).1

/-- The first count of used records that is too much for the check -/
theorem first_over {c r n : ℤ} (hc : c < 2 ^ 31) (hn : 0 ≤ n) (hover : 2 ^ 31 ≤ c + n * r) :
    ∃ u, 0 < u ∧ u ≤ n ∧ c + (u - 1) * r < 2 ^ 31 ∧ 2 ^ 31 ≤ c + u * r := by
  obtain ⟨k, rfl⟩ := Int.eq_ofNat_of_zero_le hn
  induction k with
  | zero => omega
  | succ k ih =>
      by_cases hk : 2 ^ 31 ≤ c + (k : ℤ) * r
      · obtain ⟨u, hpos, hle, hlt, hge⟩ := ih (by omega) hk
        exact ⟨u, hpos, by omega, hlt, hge⟩
      · refine ⟨(k + 1 : ℕ), by omega, by omega, ?_, hover⟩
        have hpred : ((k + 1 : ℕ) : ℤ) - 1 = k := by omega
        rw [hpred]
        omega

/-- A size between 2 and 4 GiB is negative as an `int`. -/
theorem fileSize_over (recSize used itemNum : ℤ) (hlo : 2 ^ 31 ≤ 16 + itemNum * 184 + used * recSize)
    (hhi : 16 + itemNum * 184 + used * recSize < 2 ^ 32) : fileSize recSize used itemNum < 0 := by
  unfold fileSize sizeofRItem
  rw [Int.mul_comm recSize]
  obtain ⟨q, hq, hqlo, hqhi⟩ := int32_spec (used * recSize)
  obtain ⟨q', hq', hqlo', hqhi'⟩ := int32_spec (int32 (used * recSize) + (16 + itemNum * (184 : ℕ)))
  omega

/-- The check of a right file is one that all its records pass. -/
theorem right_size (h : LayoutRight T) (hnum : 0 < T.recNum) :
    (16 + T.items.length * 184 + T.recNum * T.recSize : ℤ) < 2 ^ 31 := by
  obtain ⟨hdep, hfirst, hplace⟩ := first_place h hnum
  obtain ⟨hlo, hhi⟩ := T.recSize_range
  by_contra hover
  obtain ⟨u, hpos, hle, hlt, hge⟩ := first_over (c := 16 + T.items.length * 184) (r := T.recSize)
    (n := T.recNum) (by omega) (by omega) (by omega)
  obtain ⟨file, hupd, hopen⟩ := right_updates (fun _ => 0) h T.modifiedLong.1 T.modifiedLong.2 (by omega)
    hle (Vector.replicate 4 0)
  have hkept := h.kept 0 (Int.le_refl 0) hnum
  rw [hplace] at hkept
  have hlength := T.fileBytes_length ⟨T.modified, u, T.created.data⟩ []
  rw [hdep, List.length_nil, List.length_nil] at hlength
  rw [update_cut hdep (InMemory.opened T T.created), FileCacheTruncate] at hupd
  split_ifs at hupd with hfit
  have hcut : (T.fileBytes ⟨T.modified, u, T.created.data⟩ []).length ≤
      u64 (T.opened T.created).updateLen := by
    have hwrap := int32_lt ((T.opened T.created).tRecSize * (T.opened T.created).tRecNum)
    have hsmall : (T.opened T.created).updateLen < 2 ^ 63 := by
      unfold MyTbl.updateLen MyTbl.dataOff MyTbl.dependOff
      simp only [(InMemory.opened T T.created).scm, (InMemory.opened T T.created).depend, itemsSet_length, hdep,
        List.length_nil, Nat.cast_zero, Int.zero_mul, sizeofRItem, Nat.cast_ofNat]
      omega
    rw [hlength, u64_of_range (by omega) hsmall]
    omega
  rw [List.take_of_length_le hcut, fileBytes_append, List.nil_append] at hupd
  obtain rfl := Except.ok.inj hupd
  have hneg := fileSize_over T.recSize u T.items.length (by omega) (by
    rw [Int.sub_mul] at hlt
    omega)
  have hint := T.recNumInt
  have hopen' := open_eq (T := T) (v := ⟨T.modified, u, T.created.data⟩) (fun _ => 0)
    ⟨T.modifiedLong, by simp only; omega⟩ hle
    (List.replicate (u64 (T.opened T.created).updateLen -
      (T.fileBytes ⟨T.modified, u, T.created.data⟩ []).length) 0)
  rw [← fileBytes, hopen, if_pos (Or.inr (Int.le_of_lt hneg))] at hopen'
  cases hopen'

/-- The file of a table is right if and only if the table fits. -/
theorem layoutRight_iff (T : TblArgs) : LayoutRight T ↔ T.Fits := by
  constructor
  · intro h
    obtain ⟨hnum, hpos, -⟩ := right_opens (fun _ => 0) h
    refine ⟨right_alone h, hnum, ?_⟩
    split_ifs with hzero
    · unfold fileSize at hpos
      rw [Int.mul_zero] at hpos
      rwa [int32_of_range (x := 0) (by omega) (by omega), Int.zero_add] at hpos
    · simp only [sizeofRItem, Nat.cast_ofNat]
      exact right_size h (by omega)
  · exact Fits.right

/-- A table of one record that depends on one other -/
def oneDepend : TblArgs where
  type := 1
  modified := 0
  recNum := 1
  items := []
  depends := [⟨Vector.replicate 144 0⟩]
  typeInt := by decide
  modifiedLong := by decide
  recNumInt := by decide
  itemNumInt := by decide
  dependNumInt := by decide
  itemInts := by simp
  sizes := by simp
  recSizeInt := by decide

/-- Its record is overwritten by the list as an update writes it. -/
theorem oneDepend_overlaps : ¬LayoutRight oneDepend := by
  intro h
  obtain ⟨hnil, -⟩ := first_place h Int.one_pos
  exact absurd hnil (List.cons_ne_nil _ _)

end TblArgs

end PaxosSolutions.XjPing.TblFile
