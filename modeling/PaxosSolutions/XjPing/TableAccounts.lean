import PaxosSolutions.XjPing.TableSlots

/-!
# The books of a table over whole runs

Where its loads are safe and it finds a table with a slot, an operation keeps the
books right. New records go to slots that were free, and a compression keeps the
used records and their order.
-/
namespace PaxosSolutions.XjPing
open Lib

variable {td u : RTbl} {i j : ℕ} {ud : Usr} {mode : RLock} {E : RTbl → Prop}

/-- The new records are in slots that were not used, and no other slot is
different. -/
def Inserted (td : RTbl) (recs : List (List UInt8)) (u : RTbl) : Prop :=
  ∃ slots : List ℕ, slots.Nodup ∧ slots.map (fun i => (u.tRec i).rHead.data) = recs ∧
    (∀ i ∈ slots, i < u.tRecNum ∧ u.usedAt i = true ∧ (i < td.tRecNum → td.usedAt i = false)) ∧
    td.tRecNum ≤ u.tRecNum ∧ (∀ j < td.tRecNum, j ∉ slots → u.tRec j = td.tRec j) ∧
    ∀ j < u.tRecNum, u.usedAt j = true → j ∈ slots ∨ j < td.tRecNum

theorem Inserted.refl (td : RTbl) : Inserted td [] td :=
  ⟨[], List.nodup_nil, rfl, by simp, Nat.le_refl _, fun _ _ _ => rfl, fun _ hj _ => .inr hj⟩

theorem insertAt_tRec (data : List UInt8) :
    (td.insertAt ud mode data i).tRec = (td.setRec i ((td.tRec i).inserted ud mode data i)).tRec :=
  hashAddAll_only.tRec

theorem insertAt_tRecNum (data : List UInt8) : (td.insertAt ud mode data i).tRecNum = td.tRecNum :=
  hashAddAll_only.tRecNum

variable {recs : List (List UInt8)}

/-- One more record, in a slot that is free. -/
theorem Inserted.insertAt (h : Inserted td recs u) (hi : i < u.tRecNum) (hfree : u.usedAt i = false)
    (data : List UInt8) : Inserted td (recs ++ [data]) (u.insertAt ud mode data i) := by
  obtain ⟨slots, hnodup, hdata, hslots, hnum, hsame, hused⟩ := h
  have hni : i ∉ slots := by
    intro hmem
    rw [(hslots i hmem).2.1] at hfree
    cases hfree
  have hself : (u.insertAt ud mode data i).tRec i = (u.tRec i).inserted ud mode data i := by
    rw [insertAt_tRec, setRec_self]
  have hne : ∀ j ≠ i, (u.insertAt ud mode data i).tRec j = u.tRec j := by
    intro j hj
    rw [insertAt_tRec, setRec_ne _ hj]
  refine ⟨slots ++ [i], ?_, ?_, ?_, ?_, ?_, ?_⟩
  · refine List.nodup_append.mpr ⟨hnodup, by simp, fun j hj k hk hjk => ?_⟩
    exact hni (List.mem_singleton.mp hk ▸ hjk ▸ hj)
  · rw [List.map_append, List.map_singleton, hself, ← hdata]
    congr 1
    refine List.map_congr_left fun j hj => ?_
    rw [hne j fun h => hni (h ▸ hj)]
  · intro j hj
    rw [insertAt_tRecNum]
    rcases List.mem_append.mp hj with hj | hj
    · obtain ⟨hlt, hu, htd⟩ := hslots j hj
      refine ⟨hlt, ?_, htd⟩
      rw [RTbl.usedAt, hne j fun h => hni (h ▸ hj)]
      exact hu
    · cases List.mem_singleton.mp hj
      refine ⟨hi, ?_, fun hlt => ?_⟩
      · rw [RTbl.usedAt, hself]
        rfl
      · rw [RTbl.usedAt, ← hsame i hlt hni]
        exact hfree
  · rwa [insertAt_tRecNum]
  · intro j hj hmem
    simp only [List.mem_append, List.mem_singleton, not_or] at hmem
    rw [hne j hmem.2]
    exact hsame j hj hmem.1
  · intro j hj hu
    rcases eq_or_ne j i with rfl | hji
    · exact .inl (by simp)
    · rw [RTbl.usedAt, hne j hji] at hu
      rw [insertAt_tRecNum] at hj
      exact (hused j hj hu).imp_left fun h => List.mem_append_left _ h

theorem Inserted.extended (h : Inserted td recs u) : Inserted td recs u.extended := by
  obtain ⟨slots, hnodup, hdata, hslots, hnum, hsame, hused⟩ := h
  have hnum' : u.extended.tRecNum = u.tRecNum * 2 := rfl
  have hold : ∀ j < u.tRecNum, u.extended.tRec j = u.tRec j := by
    intro j hj
    rw [extended_tRec, if_pos hj]
  refine ⟨slots, hnodup, ?_, ?_, by omega, ?_, ?_⟩
  · rw [← hdata]
    refine List.map_congr_left fun j hj => ?_
    rw [hold j (hslots j hj).1]
  · intro j hj
    obtain ⟨hlt, hu, htd⟩ := hslots j hj
    refine ⟨by omega, ?_, htd⟩
    rw [RTbl.usedAt, hold j hlt]
    exact hu
  · intro j hj hmem
    rw [hold j (by omega)]
    exact hsame j hj hmem
  · intro j _ hu
    rw [extended_usedAt] at hu
    simp only [Bool.and_eq_true, decide_eq_true_eq] at hu
    exact hused j hu.1 hu.2

/-! ### Operations -/

theorem gives_insert_accounts (h : Good td) (items : List String) (recs : List (List UInt8)) :
    Gives (fun s => s = td) (svcInsert noLoad ud items mode recs)
      (fun _ s => Good s ∧ Inserted td recs s) fun s => Good s ∧ Inserted td [] s := by
  refine (gives_svcInsert (I := fun done s => Good s ∧ Inserted td done s) items recs ?_ ?_).weaken
    (fun s hs => by subst hs; exact ⟨h, Inserted.refl s⟩) (fun _ _ h => h) fun _ h => h
  · intro done data _ s i _ hs hi
    exact ⟨hs.1.insertFree hi data, hs.2.insertAt hi.2.1 hi.2.2.1 data⟩
  · intro done data _ s _ hs hfull hpos
    have hnum : s.extended.tRecNum = s.tRecNum * 2 := rfl
    refine ⟨hs.1.insertFull hfull hpos data, hs.2.extended.insertAt (by omega) ?_ data⟩
    rw [extended_usedAt]
    simp

theorem gives_insertSql_accounts (h : Good td) (items : List String) (data : List UInt8) :
    Gives (fun s => s = td) (prcInsert noLoad ud items mode data)
      (fun _ s => Good s ∧ Inserted td [data] s) fun s => Good s ∧ Inserted td [] s := by
  refine (gives_prcInsert (P := fun s => Good s ∧ Inserted td [] s) items data ?_ ?_).weaken
    (fun s hs => by subst hs; exact ⟨h, Inserted.refl s⟩) (fun _ _ h => h) fun _ h => h
  · intro s i hs hi
    exact ⟨hs.1.insertFree hi data, hs.2.insertAt hi.2.1 hi.2.2.1 data⟩
  · intro s hs hfull hpos
    have hnum : s.extended.tRecNum = s.tRecNum * 2 := rfl
    refine ⟨hs.1.insertFull hfull hpos data, hs.2.extended.insertAt (by omega) ?_ data⟩
    rw [extended_usedAt]
    simp

theorem good_deleteFails {unlink : List UInt8 → Bool} (h : Good td) (hu : DeleteFails unlink td i u) :
    Good u := by
  obtain ⟨items, -, rfl, -⟩ := hu
  exact h.hash (hashDelList_only items)

/-- The slot `i` of a table whose books are right. -/
def GoodAt (n i : ℕ) (td : RTbl) : Prop := Good td ∧ td.tRecNum = n ∧ i < n

theorem Good.setItemAt (h : Good td) (hi : i < td.tRecNum) (ip : RItem) (data : List UInt8) :
    Good (td.setItemAt ip i data) := by
  unfold RTbl.setItemAt
  refine Good.hash ?_ (hashAdd_only ip)
  have hdel : Good (td.hashDel ip (td.tRec i) i) := h.hash (hashDel_only ip)
  have honly : HashOnly td (td.hashDel ip (td.tRec i) i) := hashDel_only ip
  refine hdel.set (honly.tRecNum ▸ hi) (h.allIn i hi) ?_ ?_ ?_ ?_ <;> rw [honly.tRec] <;> rfl

theorem gives_update_accounts (h : Good td) (recs : List (ℤ × List UInt8)) :
    Gives (fun s => s = td) (svcUpdate noLoad ud mode recs) (fun _ => Good) Good := by
  refine gives_svcUpdate recs (h.hash rfl) fun rp _ s hs hlt _ _ => ?_
  exact hs.set hlt (hs.allIn _ hlt) rfl rfl rfl rfl

theorem gives_updateSql_accounts (h : Good td)
    (sets : List (RItem × (List UInt8 → Option (List UInt8)))) (wp : RHead → Bool) :
    Gives (fun s => s = td) (prcUpdate noLoad ud mode sets wp) (fun _ => Good) Good := by
  refine (gives_prcUpdate (I := fun _ s => Good s ∧ s.tRecNum = td.tRecNum) sets wp ⟨h, rfl⟩
    (fun done i rest hi => ?_) h).weaken (fun _ h => h) (fun _ _ h => h.1) fun _ h => h
  have hmem : i ∈ td.chosen wp := hi ▸ List.mem_append_right done List.mem_cons_self
  have hlt : i < td.tRecNum := List.mem_range.mp (List.mem_filter.mp hmem).1
  refine gives_prcUpdateRec (I := fun _ s => Good s ∧ s.tRecNum = td.tRecNum) sets
    (fun s hs _ _ => hs) ?_ ?_ ?_ (fun _ hs => hs) fun _ hs => hs.1
  · intro done x rest s data _ hs _
    refine ⟨hs.1.setItemAt (hs.2 ▸ hlt) x.1 data, ?_⟩
    rw [RTbl.setItemAt, (hashAdd_only x.1).tRecNum, setRec_tRecNum, (hashDel_only x.1).tRecNum]
    exact hs.2
  · intro done x rest s _ hs _
    have honly : HashOnly s (s.keepItemAt x.1 i) := (hashDel_only x.1).trans (hashAdd_only x.1)
    exact hs.1.hash honly
  · intro s hs
    have hmem := hs.1.allIn i (hs.2 ▸ hlt)
    exact ⟨hs.1.set (hs.2 ▸ hlt) hmem rfl rfl rfl rfl, hs.2⟩

theorem gives_deleteSql_accounts (h : Good td) (unlink : List UInt8 → Bool) (wp : RHead → Bool) :
    Gives (fun s => s = td) (prcDelete noLoad unlink ud wp) (fun _ => Good) Good := by
  refine (gives_prcDelete (P := fun s => Good s ∧ s.tRecNum = td.tRecNum) unlink wp ⟨h, rfl⟩
    fun i hi => ?_).weaken (fun _ h => h) (fun _ _ h => h.1) fun _ h => h.1
  have hlt : i < td.tRecNum := List.mem_range.mp (List.mem_filter.mp hi).1
  refine gives_prcDeleteRec unlink ?_ ?_
  · intro s hs hu _
    refine ⟨hs.1.deleteAt (hs.2 ▸ hlt) hu, ?_⟩
    exact (hashDelList_only s.tScm).tRecNum.trans hs.2
  · intro s t hs _ ht
    refine ⟨good_deleteFails hs.1 ht, ?_⟩
    obtain ⟨items, -, rfl, -⟩ := ht
    exact (hashDelList_only items).tRecNum.trans hs.2

theorem gives_find_accounts (check : RHead → Option Bool) (num : ℕ) :
    Gives Good (svcFind noLoad ud mode check num) (fun _ => Good) Good :=
  gives_svcFind check num (fun _ hs => hs.apart rfl rfl rfl rfl rfl)
    fun _ i hs hlt _ _ => hs.set hlt (hs.allIn i hlt) rfl rfl rfl rfl

/-- What an operation has done to the slots. -/
def SlotsDone (td u : RTbl) (r : TblReply) : TblOp → Prop
  | .insert _ _ _ recs => Inserted td (if r.isOk then recs else []) u
  | .insertSql _ _ _ rp => Inserted td (if r.isOk then [rp] else []) u
  | .compress => r.isOk = true → Compressed td u
  | _ => True

def TblOp.isRollback : TblOp → Bool
  | .rollback _ => true
  | _ => false

/-- A program that answers with no records. -/
theorem Gives.reply {P : RTbl → Prop} {p : TblM Unit} {Q : Unit → RTbl → Prop}
    (h : Gives P p Q E) {r : TblReply} (htd : P td)
    (hr : perform (do p; return (([] : List RHead), (none : Option RdbErr))) td = .ok (r, u)) :
    (r.isOk = true ∧ Q () u) ∨ (r.isOk = false ∧ E u) := by
  rcases perform_bind_ok hr with ⟨a, v, hp, hv⟩ | ⟨e, hp, rfl⟩
  · cases hv
    exact .inl ⟨rfl, (h td htd).1 a u hp⟩
  · exact .inr ⟨rfl, (h td htd).2 e u hp⟩

/-- What holds of every answer. -/
theorem Gives.replies {P Q : RTbl → Prop} {p : TblM Unit} (h : Gives P p (fun _ => Q) Q)
    {r : TblReply} (htd : P td)
    (hr : perform (do p; return (([] : List RHead), (none : Option RdbErr))) td = .ok (r, u)) :
    Q u :=
  (Gives.reply h htd hr).elim (fun hu => hu.2) fun hu => hu.2

theorem gives_cancel_accounts : Gives Good (svcCancel ud) (fun _ => Good) Good := by
  refine Gives.getBind fun s hs => ?_
  refine (gives_throwIf fun t ht => ht ▸ hs).bind fun _ => ?_
  refine Gives.modify fun t ht => ?_
  obtain ⟨rfl, -⟩ := ht
  exact hs.cancel

theorem gives_store_accounts (h : Good td) (x : Option Usr) :
    Gives (fun s => s = td) (svcStore 0 td.tRecNum x) (fun _ => Good) E := by
  by_cases hswap : ((List.range' 0 td.tRecNum).any fun i =>
      td.stores x i && (td.tRec i).rStat.swap) = true
  · exact Gives.of_fault (by rw [perform_svcStore, if_pos hswap])
  · exact Gives.of_perform (by rw [perform_svcStore, if_neg hswap]) (h.storeAll x)

/-- On a table in memory each operation but a rollback keeps the books right. -/
theorem eager_accounts (h : Good td) {op : TblOp} {r : TblReply} (hop : op.isRollback = false)
    (hr : perform (eagerProg op) td = .ok (r, u)) : Good u ∧ SlotsDone td u r op := by
  cases op <;> simp only [eagerProg, tblProg] at hr
  case find ud mode check num =>
      have hfind : Gives Good (svcFind noLoad ud mode check num) (fun _ => Good) Good :=
        gives_find_accounts check num
      refine ⟨?_, trivial⟩
      cases r with
      | ok x => exact (hfind td h).1 x u hr
      | error e => exact (hfind td h).2 e u hr
  case rewind ud =>
      cases hr
      exact ⟨h.apart rfl rfl rfl rfl rfl, trivial⟩
  case insert ud items mode recs =>
      rcases Gives.reply (gives_insert_accounts h items recs) rfl hr with ⟨hok, hu⟩ | ⟨hok, hu⟩
      · exact ⟨hu.1, by rw [SlotsDone, if_pos hok]; exact hu.2⟩
      · exact ⟨hu.1, by rw [SlotsDone, if_neg (by simp [hok])]; exact hu.2⟩
  case insertSql ud items mode rp =>
      rcases Gives.reply (gives_insertSql_accounts h items rp) rfl hr with ⟨hok, hu⟩ | ⟨hok, hu⟩
      · exact ⟨hu.1, by rw [SlotsDone, if_pos hok]; exact hu.2⟩
      · exact ⟨hu.1, by rw [SlotsDone, if_neg (by simp [hok])]; exact hu.2⟩
  case delete unlink ud recs =>
      have hdel : Gives Good (svcDelete noLoad unlink ud recs) (fun _ => Good) Good :=
        gives_svcDelete unlink recs (fun _ _ s hs hlt hu _ => hs.deleteAt hlt hu)
          fun _ _ s t hs _ _ ht => good_deleteFails hs ht
      exact ⟨Gives.replies hdel h hr, trivial⟩
  case deleteSql unlink ud wp =>
      exact ⟨Gives.replies (gives_deleteSql_accounts h unlink wp) rfl hr, trivial⟩
  case update ud mode recs =>
      exact ⟨Gives.replies (gives_update_accounts h recs) rfl hr, trivial⟩
  case updateSql ud mode sets wp =>
      exact ⟨Gives.replies (gives_updateSql_accounts h sets wp) rfl hr, trivial⟩
  case cancel ud =>
      exact ⟨Gives.replies gives_cancel_accounts h hr, trivial⟩
  case rollback ud => cases hop
  case store ud =>
      rw [perform_bind_of_ok perform_get] at hr
      have hprog : Gives (fun s => s = td) (svcStore 0 td.tRecNum (some ud)) (fun _ => Good) Good :=
        gives_store_accounts h (some ud)
      exact ⟨Gives.replies hprog rfl hr, trivial⟩
  case compress =>
      rcases Gives.reply (gives_svcCompress h) rfl hr with ⟨-, hu⟩ | ⟨hok, rfl⟩
      · exact ⟨hu.1, fun _ => hu.2⟩
      · exact ⟨h.hash rfl, fun hok' => by simp [hok] at hok'⟩
  case swapOut =>
      cases hr
      exact ⟨h, trivial⟩
  case hold lock =>
      cases hr
      exact ⟨h.apart rfl rfl rfl rfl rfl, trivial⟩
  case users cnt =>
      cases hr
      exact ⟨h.apart rfl rfl rfl rfl rfl, trivial⟩

/-! ### Runs -/

/-- The head of a file counts its used records, and these have their numbers. -/
structure FileFits (file : TblFile) : Prop where
  used : file.recUsed = (List.range file.recNum).countP fun j => (file.recs j).rStat.used
  number : ∀ j, (file.recs j).Numbered j

theorem tblOpen_good {file : TblFile} (h : FileFits file) (tRecSize : ℕ) (tScm : List RItem) :
    Good (tblOpen file tRecSize tScm).loaded := by
  have hrec : ∀ j < file.recNum, (tblOpen file tRecSize tScm).loaded.tRec j =
      ((tblOpen file tRecSize tScm).tRec j).load (file.recs j) := fun j hj => loaded_of_lt hj
  refine ⟨loaded_allIn (tblOpen_settled file tRecSize tScm), ?_, Nat.zero_le _, ?_, ?_, ?_, h.number⟩
  · change file.recUsed = _
    rw [h.used]
    refine congrArg _ (countP_range_congr fun j hj => ?_)
    rw [RTbl.usedAt, hrec j hj]
    rfl
  · intro j hj
    exact absurd hj (Nat.not_lt_zero j)
  · intro j hj hu
    rw [RTbl.usedAt, hrec j hj] at hu
    rw [hrec j hj]
    exact hu
  · intro j hj
    rw [hrec j hj]
    exact h.number j

/-- The loads of an operation are safe, it finds a table with a slot where it
needs one, and it is not a rollback. -/
structure SlotsFit (td : RTbl) (op : TblOp) : Prop where
  loads : LoadsFit td op
  keeps : op.isRollback = false

instance (td : RTbl) (op : TblOp) : Decidable (SlotsFit td op) :=
  decidable_of_iff (LoadsFit td op ∧ op.isRollback = false) ⟨fun h => ⟨h.1, h.2⟩, fun h => ⟨h.1, h.2⟩⟩

/-- After a run the books are right, the last operation has put its records in
free slots or packed the used ones, and a change of the size of the table keeps
the slots that it stores. What has not been loaded counts as it is in the file. -/
def SlotsKept (file : TblFile) (tRecSize : ℕ) (tScm : List RItem) (ops : List TblOp) (op : TblOp) :
    Prop :=
  ∃ td out r td', run (tblStep svcLoad) (tblOpen file tRecSize tScm, []) ops = .ok (td, out) ∧
    perform (tblProg svcLoad op) td = .ok (r, td') ∧ Accounts td'.loaded ∧
    SlotsDone td.loaded td'.loaded r op ∧
    ∀ store new q u, perform (svcSwitch store new) td' = .ok (q, u) →
      u.tRecNum = new ∧ ∀ i < store, u.tRec i = td'.tRec i

theorem svcSwitch_keeps {store new : ℕ} {q : Except RdbErr Unit}
    (h : perform (svcSwitch store new) td = .ok (q, u)) :
    u.tRecNum = new ∧ ∀ i < store, u.tRec i = td.tRec i := by
  rw [perform_svcSwitch] at h
  split at h
  · cases h
  · cases h
    exact ⟨rfl, fun i hi => if_pos hi⟩

/-- The books of the loaded table are right after a run whose loads are safe. -/
theorem tblRun_good {out out' : List TblReply} {ops : List TblOp} (hset : Settled td)
    (h : Good td.loaded) (hops : Along (tblStep svcLoad) (fun s op => SlotsFit s.1 op) (td, out) ops)
    (hrun : run (tblStep svcLoad) (td, out) ops = .ok (u, out')) : Settled u ∧ Good u.loaded := by
  refine run_invariant (I := fun s : RTbl × List TblReply => Settled s.1 ∧ Good s.1.loaded)
    (fun s op t hs hop hstep => ?_) ⟨hset, h⟩ hops hrun
  obtain ⟨r, v, hr, hv, he, -⟩ := tblProg_eager hs.1 hop.loads
  rw [tblStep, hr] at hstep
  cases hstep
  exact ⟨hv, (eager_accounts hs.2 hop.keeps he).1⟩

theorem usedFile_fits (n : ℕ) : FileFits (usedFile n) := by
  constructor
  · have hcount : (List.range n).countP (fun j => ((usedFile n).recs j).rStat.used) = n :=
      countP_range_all fun j hj => by simp [usedFile, hj]
    exact congrArg Int.ofNat hcount.symm
  · intro j
    unfold usedFile RHead.Numbered
    dsimp only
    split
    · exact fun _ => ⟨rfl, rfl⟩
    · exact fun h => Bool.noConfusion h

end PaxosSolutions.XjPing
