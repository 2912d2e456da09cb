import PaxosSolutions.XjPing.TblLayout

/-!
# What calls on a table file keep

A file is its head, its items and the records that have been written. Each call on a table
that fits keeps it so, and with it what is opened and loaded.
-/
namespace PaxosSolutions.XjPing.TblFile
open Lib NWGadget

namespace TblArgs
variable {T : TblArgs} {v : TblView} {junk : ℕ → UInt8} {body : List UInt8}

/-- The file of a table, with what there is of its records -/
def fileBytes (T : TblArgs) (v : TblView) (body : List UInt8) : List UInt8 :=
  T.headBytes v ++ (T.itemBytes ++ (T.dependBytes ++ body))

/-- The bytes of the records that the file has are those of the table, the others are zeros. -/
structure Holds (T : TblArgs) (v : TblView) (body : List UInt8) : Prop where
  head : HeadOk T v
  le : v.used ≤ T.recNum
  size : body.length ≤ T.dataSize
  full : v.used ≠ 0 → body.length = T.dataSize
  len : v.data.length = T.dataSize
  data : ∀ i < T.dataSize, body.getD i 0 = v.data.getD i 0

/-- What an open table in memory has of its file -/
structure InMemory (T : TblArgs) (md : MyTbl) : Prop where
  num : md.tRecNum = T.recNum
  size : md.tRecSize = T.recSize
  scm : md.tScm = T.itemsSet
  depend : md.tDepend = T.depends
  off : md.mDataOff = int32 (32 + T.items.length * sizeofRItem + T.depends.length * sizeofRTblMod)

theorem InMemory.opened (T : TblArgs) (v : TblView) : T.InMemory (T.opened v) where
  num := rfl
  size := rfl
  scm := rfl
  depend := rfl
  off := by simp only [TblArgs.opened]

theorem fileBytes_eq (T : TblArgs) (v : TblView) (body : List UInt8) :
    T.fileBytes v body = T.headBytes v ++ (T.itemBytes ++ T.dependBytes) ++ body := by
  simp only [fileBytes, List.append_assoc]

theorem fileBytes_append (T : TblArgs) (v : TblView) (body more : List UInt8) :
    T.fileBytes v body ++ more = T.fileBytes v (body ++ more) := by
  rw [fileBytes_eq, fileBytes_eq, List.append_assoc]

theorem fileBytes_length (T : TblArgs) (v : TblView) (body : List UInt8) :
    (T.fileBytes v body).length =
      32 + T.items.length * 184 + T.depends.length * 144 + body.length := by
  rw [fileBytes, List.length_append, List.length_append, List.length_append, headBytes_length, itemBytes_length,
    dependBytes_length]
  omega

/-- The numbers of a range of records, none of which is beyond an `int` -/
structure RangeFits (T : TblArgs) (s n : ℤ) : Prop where
  off : 0 ≤ s * T.recSize
  len : 0 < n * T.recSize
  inside : s * T.recSize + n * T.recSize ≤ T.recNum * T.recSize
  fits : 16 + T.items.length * 184 + T.recNum * T.recSize < 2 ^ 31
  step : n * T.recSize ≥ 32

theorem Fits.range (h : T.Fits) {s n : ℤ} (hs : 0 ≤ s) (hn : 0 < n) (hle : s + n ≤ T.recNum) :
    RangeFits T s n := by
  obtain ⟨-, -, hsize⟩ := h
  rw [if_neg (by omega)] at hsize
  obtain ⟨hlo, hhi⟩ := T.recSize_range
  have hlen : 1 * 32 ≤ n * T.recSize := Int.mul_le_mul (by omega) hlo (by omega) (by omega)
  have hin : (s + n) * T.recSize ≤ T.recNum * T.recSize := Int.mul_le_mul_of_nonneg_right hle (by omega)
  rw [Int.add_mul] at hin
  simp only [sizeofRItem, Nat.cast_ofNat] at hsize
  exact ⟨Int.mul_nonneg hs (by omega), by omega, hin, hsize, by omega⟩

/-- Where a range of records is in the file -/
theorem RangeFits.recOff {s n : ℤ} {md : MyTbl} (hr : RangeFits T s n) (hdep : T.depends = [])
    (hmd : T.InMemory md) :
    md.recOff s = 32 + T.items.length * 184 + s * T.recSize ∧ int32 (n * md.tRecSize) = n * T.recSize ∧
      u64 (md.recOff s) = (T.headBytes v ++ (T.itemBytes ++ T.dependBytes)).length + (s * T.recSize).toNat ∧
      u64 (md.recOff s) < 2 ^ 63 := by
  obtain ⟨hoff, hlen, hin, hfits, hstep⟩ := hr
  have hsize : int32 (s * T.recSize) = s * T.recSize := int32_of_range (by omega) (by omega)
  have hdata : int32 (32 + T.items.length * 184) = 32 + T.items.length * 184 :=
    int32_of_range (by omega) (by omega)
  have hrec : int32 (32 + T.items.length * 184 + s * T.recSize) = 32 + T.items.length * 184 + s * T.recSize :=
    int32_of_range (by omega) (by omega)
  have hall : md.recOff s = 32 + T.items.length * 184 + s * T.recSize := by
    unfold MyTbl.recOff
    simp only [hmd.off, hmd.size, hdep, List.length_nil, sizeofRItem, Nat.cast_ofNat, Nat.cast_zero,
      Int.zero_mul, Int.add_zero, hsize, hdata, hrec]
  have hbytes : (T.headBytes v ++ (T.itemBytes ++ T.dependBytes)).length = 32 + T.items.length * 184 := by
    rw [List.length_append, List.length_append, headBytes_length, itemBytes_length, dependBytes_length, hdep]
    simp only [List.length_nil]
    omega
  have hcount : int32 (n * T.recSize) = n * T.recSize := int32_of_range (by omega) (by omega)
  refine ⟨hall, hmd.size ▸ hcount, ?_, ?_⟩
  · rw [hall, hbytes, u64_of_range (by omega) (by omega)]
    omega
  · rw [hall, u64_of_range (by omega) (by omega)]
    omega

/-- What `TBL_STORE` leaves of the file -/
theorem store_eq {s n : ℤ} {md : MyTbl} {bufp : List UInt8} (hr : RangeFits T s n) (hdep : T.depends = [])
    (hmd : T.InMemory md) (hbuf : (bufp.length : ℤ) = n * T.recSize) :
    myTblStore md s n bufp (T.fileBytes v body) =
      .ok (T.fileBytes v (File.write ⟨body, (s * T.recSize).toNat⟩ bufp).bytes) := by
  obtain ⟨-, hlen, hoff, hfit⟩ := hr.recOff hdep hmd
  have hcount : u64 (n * T.recSize) = bufp.length := by
    have hfits := hr.fits
    have hin := hr.inside
    have hlo := hr.off
    rw [u64_of_range (by omega) (by omega), ← hbuf, Int.toNat_natCast]
  unfold myTblStore FileCacheWrite
  simp only
  rw [hlen, hcount, if_pos (Nat.le_refl _), if_pos hfit, List.take_length, hoff, fileBytes_eq, write_behind,
    ← fileBytes_eq]

/-- What `TBL_LOAD` puts into the buffer -/
theorem load_eq {s n : ℤ} {md : MyTbl} (hr : RangeFits T s n) (hdep : T.depends = [])
    (hmd : T.InMemory md) (h : Holds T v body) :
    myTblLoad md s n (T.fileBytes v body) =
      .ok ((v.data.drop (s * T.recSize).toNat).take (n * T.recSize).toNat) := by
  obtain ⟨-, hlen, hoff, hfit⟩ := hr.recOff hdep hmd
  have hin : (s * T.recSize).toNat + (n * T.recSize).toNat ≤ T.dataSize := by
    have hin := hr.inside
    have hlo := hr.off
    have hpos := hr.len
    unfold dataSize
    omega
  have hdrop : (T.fileBytes v body).drop (u64 (md.recOff s)) = body.drop (s * T.recSize).toNat := by
    rw [hoff, fileBytes_eq, List.drop_length_add_append]
  unfold myTblLoad FileCacheRead
  simp only
  rw [hlen, if_neg (by have := hr.len; omega), if_pos hfit, ok_bind, hdrop]
  refine congrArg Except.ok (ext_getD ?_ ?_)
  · have hsize := h.len
    simp only [List.length_append, List.length_take, List.length_drop, List.length_replicate]
    omega
  · intro i hi
    have hlt : i < (n * T.recSize).toNat := by
      simp only [List.length_append, List.length_take, List.length_drop, List.length_replicate] at hi
      omega
    rw [getD_zeros, getD_part hlt, getD_part hlt]
    exact h.data _ (by omega)

/-- A write over a part of the same length -/
theorem write_over {file file' new : List UInt8} {off : ℕ} (pre mid post : List UInt8)
    (hfile : file = pre ++ (mid ++ post)) (hfile' : file' = pre ++ (new ++ post)) (hoff : off = pre.length)
    (hlen : new.length = mid.length) (hfit : off < 2 ^ 63) : FileCacheWrite file off new = .ok file' := by
  rw [FileCacheWrite, if_pos hfit, hoff, hfile, hfile', File.write_append hlen]

/-- The three numbers that `my_head_update` writes into the head -/
theorem headWrite_eq (v : TblView) (modified used : ℤ) (rest : List UInt8) {β : Type}
    (f : List UInt8 → Except TblErr β) :
    (do
      let file ← FileCacheWrite (T.headBytes v ++ rest) 4 (longBytes modified)
      let file ← FileCacheWrite file 12 (intBytes T.recNum)
      let file ← FileCacheWrite file 16 (intBytes used)
      f file) = f (T.headBytes ⟨modified, used, v.data⟩ ++ rest) := by
  have htime : FileCacheWrite (T.headBytes v ++ rest) 4 (longBytes modified) =
      .ok (T.headBytes { v with modified := modified } ++ rest) :=
    write_over (intBytes T.type) (longBytes v.modified)
      (intBytes T.recNum ++ (intBytes v.used ++ (intBytes T.recSize ++ rest)))
      (by simp only [headBytes, List.append_assoc]) (by simp only [headBytes, List.append_assoc]) rfl
      (by rw [longBytes_length, longBytes_length]) (by decide)
  have hnum : FileCacheWrite (T.headBytes { v with modified := modified } ++ rest) 12 (intBytes T.recNum) =
      .ok (T.headBytes { v with modified := modified } ++ rest) :=
    write_over (intBytes T.type ++ longBytes modified) (intBytes T.recNum)
      (intBytes v.used ++ (intBytes T.recSize ++ rest))
      (by simp only [headBytes, List.append_assoc]) (by simp only [headBytes, List.append_assoc]) rfl rfl
      (by decide)
  have hcount : FileCacheWrite (T.headBytes { v with modified := modified } ++ rest) 16 (intBytes used) =
      .ok (T.headBytes ⟨modified, used, v.data⟩ ++ rest) :=
    write_over (intBytes T.type ++ (longBytes modified ++ intBytes T.recNum)) (intBytes v.used)
      (intBytes T.recSize ++ rest)
      (by simp only [headBytes, List.append_assoc]) (by simp only [headBytes, List.append_assoc]) rfl rfl
      (by decide)
  rw [htime, ok_bind, hnum, ok_bind, hcount, ok_bind]

/-- Where `my_head_update` cuts the file -/
theorem Fits.updateLen (h : T.Fits) {md : MyTbl} (hmd : T.InMemory md) :
    md.updateLen = 32 + T.items.length * 184 + T.recNum * T.recSize ∧ 0 ≤ T.recNum * T.recSize ∧
      T.recNum * T.recSize < 2 ^ 31 := by
  obtain ⟨hdep, hnum, hsize⟩ := h
  obtain ⟨hlo, hhi⟩ := T.recSize_range
  have hpos : 0 ≤ T.recNum * T.recSize := Int.mul_nonneg hnum (by omega)
  have hlt : T.recNum * T.recSize < 2 ^ 31 := by
    by_cases hzero : T.recNum = 0
    · rw [hzero]
      omega
    · rw [if_neg hzero] at hsize
      simp only [sizeofRItem, Nat.cast_ofNat] at hsize
      omega
  have hwrap : int32 (T.recSize * T.recNum) = T.recNum * T.recSize := by
    rw [Int.mul_comm]
    exact int32_of_range (by omega) hlt
  refine ⟨?_, hpos, hlt⟩
  unfold MyTbl.updateLen MyTbl.dataOff MyTbl.dependOff
  simp only [hmd.scm, hmd.depend, hmd.num, hmd.size, hwrap, hdep, itemsSet_length, List.length_nil,
    Nat.cast_zero, Int.zero_mul, sizeofRItem, Nat.cast_ofNat]
  omega

/-- Without tables that it depends on an update writes into the head and cuts the file. -/
theorem update_cut (hdep : T.depends = []) {md : MyTbl} (hmd : T.InMemory md) (modified used : ℤ)
    (pad : Vector UInt8 4) :
    myHeadUpdate pad { md with
        tModified := modified
        tRecOriUsed := used } (T.fileBytes v body) =
      FileCacheTruncate (T.fileBytes ⟨modified, used, v.data⟩ body) (u64 md.updateLen) := by
  have hnone : md.tDepend = [] := hmd.depend.trans hdep
  have hwrites := headWrite_eq (T := T) v modified used (T.itemBytes ++ (T.dependBytes ++ body)) fun file =>
    FileCacheTruncate file (u64 md.updateLen)
  have hkeep : MyTbl.updateLen { md with
      tModified := modified
      tRecOriUsed := used } = md.updateLen := rfl
  rw [← fileBytes, ← fileBytes] at hwrites
  rw [← hwrites, myHeadUpdate, hkeep]
  simp only [hnone, hmd.num, ne_eq, not_true_eq_false, if_false, ok_bind]

/-- What an update of the head leaves of the file -/
theorem update_eq (h : T.Fits) {md : MyTbl} (hmd : T.InMemory md) (hsize : body.length ≤ T.dataSize)
    (modified used : ℤ) (pad : Vector UInt8 4) :
    myHeadUpdate pad { md with
        tModified := modified
        tRecOriUsed := used } (T.fileBytes v body) =
      .ok (T.fileBytes ⟨modified, used, v.data⟩ (body ++ List.replicate (T.dataSize - body.length) 0)) := by
  have hdep := h.1
  have hnum := T.itemNumInt
  obtain ⟨hlen, hpos, hlt⟩ := h.updateLen hmd
  have hcut : u64 md.updateLen = 32 + T.items.length * 184 + T.dataSize := by
    rw [u64_of_range (by omega) (by omega)]
    unfold dataSize
    omega
  have htrunc : FileCacheTruncate (T.fileBytes ⟨modified, used, v.data⟩ body) (u64 md.updateLen) =
      .ok (T.fileBytes ⟨modified, used, v.data⟩ (body ++ List.replicate (T.dataSize - body.length) 0)) := by
    have hlength := T.fileBytes_length ⟨modified, used, v.data⟩ body
    rw [hdep, List.length_nil] at hlength
    have hfit : u64 md.updateLen < 2 ^ 63 := by
      unfold dataSize at hcut
      omega
    have hgap : u64 md.updateLen - (T.fileBytes ⟨modified, used, v.data⟩ body).length =
        T.dataSize - body.length := by
      rw [hcut, hlength]
      omega
    rw [FileCacheTruncate, if_pos hfit, List.take_of_length_le (by rw [hcut, hlength]; omega), hgap,
      fileBytes_append]
  rw [update_cut hdep hmd, htrunc]

theorem Holds.created (h : T.Fits) : Holds T T.created [] where
  head := ⟨T.modifiedLong, Int.le_refl 0, by
    change (0 : ℤ) < 2 ^ 31
    omega⟩
  le := h.2.1
  size := Nat.zero_le _
  full := fun hne => absurd rfl hne
  len := List.length_replicate
  data := by
    intro i hi
    have hzeros := getD_zeros [] T.dataSize i
    rw [List.nil_append] at hzeros
    exact hzeros.symm

theorem Holds.store {s n : ℤ} {bufp : List UInt8} (h : Holds T v body) (hr : RangeFits T s n)
    (hbuf : (bufp.length : ℤ) = n * T.recSize) :
    Holds T (T.viewStep v (.store s n bufp)) (File.write ⟨body, (s * T.recSize).toNat⟩ bufp).bytes := by
  obtain ⟨hoff, hlen, hin, hfits, hstep⟩ := hr
  have hsize := h.size
  have hdata := h.len
  have hend : ((s + n) * T.recSize).toNat = (s * T.recSize).toNat + bufp.length := by
    rw [Int.add_mul]
    omega
  have hfit : (s * T.recSize).toNat + bufp.length ≤ T.dataSize := by
    unfold dataSize
    omega
  have hwrite : (T.viewStep v (.store s n bufp)).data =
      (File.write ⟨v.data, (s * T.recSize).toNat⟩ bufp).bytes := by
    have hgap : (s * T.recSize).toNat - v.data.length = 0 := by omega
    simp only [viewStep, File.write, hend, hgap, List.replicate_zero, List.append_nil]
  refine ⟨⟨h.head.modified, h.head.used⟩, h.le, ?_, ?_, ?_, ?_⟩
  · rw [write_length]
    omega
  · intro hused
    have hfull := h.full hused
    rw [write_length]
    omega
  · rw [hwrite, write_length]
    omega
  · intro i hi
    rw [hwrite, getD_write, getD_write, h.data i hi]

theorem Holds.update (h : Holds T v body) {modified used : ℤ} (hmod : -2 ^ 63 ≤ modified ∧ modified < 2 ^ 63)
    (hused : 0 ≤ used ∧ used ≤ T.recNum) :
    Holds T ⟨modified, used, v.data⟩ (body ++ List.replicate (T.dataSize - body.length) 0) := by
  have hnum := T.recNumInt
  have hsize := h.size
  have hlen : (body ++ List.replicate (T.dataSize - body.length) 0).length = T.dataSize := by
    rw [List.length_append, List.length_replicate]
    omega
  have hint : 0 ≤ used ∧ used < 2 ^ 31 := by omega
  refine ⟨⟨hmod, hint⟩, hused.2, Nat.le_of_eq hlen, fun _ => hlen, h.len, ?_⟩
  intro i hi
  rw [getD_zeros, h.data i hi]

/-- The size that is checked is one that the file has. -/
theorem Holds.fileSize (h : Holds T v body) (hfit : T.Fits) :
    0 < fileSize T.recSize v.used T.items.length ∧
      fileSize T.recSize v.used T.items.length ≤ (T.fileBytes v body).length := by
  obtain ⟨hdep, hnum, hsize⟩ := hfit
  obtain ⟨hlo, hhi⟩ := T.recSize_range
  have hlength := T.fileBytes_length v body
  have hused := h.head.used
  have hle := h.le
  simp only [TblFile.fileSize, sizeofRItem, Nat.cast_ofNat] at hsize ⊢
  by_cases hzero : T.recNum = 0
  · rw [if_pos hzero] at hsize
    obtain ⟨q, hq, hqlo, hqhi⟩ := int32_spec (16 + T.items.length * 184)
    have hnone : int32 (T.recSize * v.used) = 0 := by
      rw [show v.used = 0 by omega, Int.mul_zero]
      rfl
    rw [hnone, Int.zero_add]
    omega
  · rw [if_neg hzero] at hsize
    have hmul : T.recSize * v.used ≤ T.recNum * T.recSize := by
      rw [Int.mul_comm]
      exact Int.mul_le_mul_of_nonneg_right hle (by omega)
    have hpos : 0 ≤ T.recSize * v.used := Int.mul_nonneg (by omega) (by omega)
    have hprod : int32 (T.recSize * v.used) = T.recSize * v.used := int32_of_range (by omega) (by omega)
    rw [hprod, int32_of_range (by omega) (by omega)]
    by_cases hnone : v.used = 0
    · rw [hnone, Int.mul_zero]
      omega
    · have hfull := h.full hnone
      unfold dataSize at hfull
      omega

theorem Holds.opens (h : Holds T v body) (hfit : T.Fits) :
    TBL_OPEN junk (T.fileBytes v body) = .ok (T.opened v) := by
  obtain ⟨hpos, hle⟩ := h.fileSize hfit
  have hopen := open_eq junk h.head h.le body
  rw [← fileBytes, if_neg (by omega)] at hopen
  exact hopen

/-- An open table is in memory and in its file as it is to be. -/
def Kept (T : TblArgs) (v : TblView) (st : OpenTbl) : Prop :=
  T.InMemory st.md ∧ ∃ body, st.file = T.fileBytes v body ∧ Holds T v body

theorem step_kept (junk : ℕ → UInt8) (hfit : T.Fits) {st : OpenTbl} {op : TblOp} (hop : T.OpOk op)
    (h : Kept T v st) : ∃ st', tblStep junk st op = .ok st' ∧ Kept T (T.viewStep v op) st' := by
  obtain ⟨hmd, body, hfile, hholds⟩ := h
  cases op with
  | store s n bufp =>
      obtain ⟨hs, hn, hle, hbuf⟩ := hop
      have hr := hfit.range hs hn hle
      refine ⟨⟨st.md, T.fileBytes v (File.write ⟨body, (s * T.recSize).toNat⟩ bufp).bytes⟩, ?_, hmd, _, rfl,
        hholds.store hr hbuf⟩
      · unfold tblStep
        simp only
        rw [hfile, store_eq hr hfit.1 hmd hbuf]
        rfl
  | update modified recOriUsed pad =>
      obtain ⟨hlo, hhi, hused, hle⟩ := hop
      refine ⟨⟨{ st.md with
          tModified := modified
          tRecOriUsed := recOriUsed },
        T.fileBytes ⟨modified, recOriUsed, v.data⟩ (body ++ List.replicate (T.dataSize - body.length) 0)⟩,
        ?_, ?_, _, rfl, hholds.update ⟨hlo, hhi⟩ ⟨hused, hle⟩⟩
      · unfold tblStep
        simp only
        rw [hfile, update_eq hfit hmd hholds.size]
        rfl
      · exact ⟨hmd.num, hmd.size, hmd.scm, hmd.depend, hmd.off⟩
  | reopen =>
      refine ⟨⟨T.opened v, st.file⟩, ?_, ?_, body, hfile, hholds⟩
      · unfold tblStep
        simp only
        rw [hfile, hholds.opens hfit]
        rfl
      · exact InMemory.opened T v

theorem run_kept (junk : ℕ → UInt8) (hfit : T.Fits) {st : OpenTbl} {ops : List TblOp}
    (hops : ∀ op ∈ ops, T.OpOk op) (h : Kept T v st) :
    ∃ st', run (tblStep junk) st ops = .ok st' ∧ Kept T (ops.foldl T.viewStep v) st' := by
  induction ops generalizing st v with
  | nil => exact ⟨st, rfl, h⟩
  | cons op ops ih =>
      obtain ⟨st', hstep, h'⟩ := step_kept junk hfit (hops op (List.mem_cons_self ..)) h
      obtain ⟨st'', hrun, h''⟩ := ih (fun o ho => hops o (List.mem_cons_of_mem op ho)) h'
      refine ⟨st'', ?_, h''⟩
      unfold run
      rw [hstep]
      exact hrun

/-- A table that is created is opened, and any calls keep it. -/
theorem tblRun_kept (junk : ℕ → UInt8) (hfit : T.Fits) {ops : List TblOp} (hops : ∀ op ∈ ops, T.OpOk op) :
    ∃ st, tblRun junk T ops = .ok st ∧ Kept T (T.view ops) st := by
  have hnew := Holds.created hfit
  have hcreate : TBL_CREATE T = .ok (T.fileBytes T.created []) := by
    rw [create_eq, fileBytes, List.append_nil]
  have hstart : Kept T T.created ⟨T.opened T.created, T.fileBytes T.created []⟩ :=
    ⟨InMemory.opened T T.created, [], rfl, hnew⟩
  obtain ⟨st, hrun, hkept⟩ := run_kept junk hfit hops hstart
  refine ⟨st, ?_, hkept⟩
  unfold tblRun
  rw [hcreate, ok_bind, hnew.opens hfit, ok_bind]
  exact hrun

/-- A record is behind the head by the records before it. -/
theorem Fits.place (hfit : T.Fits) {s : ℤ} (hs : 0 ≤ s) (hlt : s < T.recNum) :
    0 ≤ s * T.recSize ∧ s * T.recSize + T.recSize ≤ T.recNum * T.recSize ∧
      T.place s = (32 + T.items.length * 184 + s * T.recSize,
        32 + T.items.length * 184 + s * T.recSize + T.recSize) := by
  have hr := hfit.range hs (by omega) (by omega : s + 1 ≤ T.recNum)
  have hoff := (hr.recOff (v := T.created) hfit.1 (InMemory.opened T T.created)).1
  have hin := hr.inside
  rw [Int.one_mul] at hin
  refine ⟨hr.off, hin, ?_⟩
  unfold TblArgs.place
  rw [hoff]

/-- A table that fits has a file that is right for it. -/
theorem Fits.right (hfit : T.Fits) : LayoutRight T := by
  obtain ⟨hlo, hhi⟩ := T.recSize_range
  refine ⟨?_, ?_, ?_, ?_⟩
  · intro s hs hlt
    obtain ⟨hoff, hin, hplace⟩ := hfit.place hs hlt
    rw [hplace]
    refine ⟨by omega, ?_⟩
    intro a ha
    refine Or.inl ?_
    simp only [areas, hfit.1, if_true, List.append_nil, MyTbl.dataOff, MyTbl.dependOff, opened,
      itemsSet_length, List.length_nil, sizeofRItem, Nat.cast_ofNat, Nat.cast_zero, List.mem_cons,
      List.not_mem_nil, or_false] at ha
    rcases ha with rfl | rfl | rfl <;> simp only <;> omega
  · intro s t hs hlt ht hlt' hne
    rw [(hfit.place hs hlt).2.2, (hfit.place ht hlt').2.2]
    have hstep : ∀ a b : ℤ, a < b → a * T.recSize + T.recSize ≤ b * T.recSize := by
      intro a b hab
      have hmul := Int.mul_le_mul_of_nonneg_right (by omega : a + 1 ≤ b) (by omega : 0 ≤ T.recSize)
      rw [Int.add_mul, Int.one_mul] at hmul
      exact hmul
    rcases Int.lt_or_gt_of_ne hne with h | h
    · have := hstep s t h
      exact Or.inl (by simp only; omega)
    · have := hstep t s h
      exact Or.inr (by simp only; omega)
  · intro s hs hlt
    obtain ⟨hoff, hin, hplace⟩ := hfit.place hs hlt
    rw [hplace, (hfit.updateLen (InMemory.opened T T.created)).1]
    simp only
    omega
  · intro junk ops hops
    obtain ⟨st, hrun, hmd, body, hfile, hholds⟩ := tblRun_kept junk hfit hops
    refine ⟨st, hrun, ?_, ?_⟩
    · rw [hfile]
      exact hholds.opens hfit
    · intro s n hs hn hle
      rw [hfile]
      exact load_eq (hfit.range hs hn hle) hfit.1 hmd hholds

end TblArgs

end PaxosSolutions.XjPing.TblFile
