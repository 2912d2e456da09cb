import PaxosSolutions.XjPing.TableEager

/-!
# The edits of an operation

On a table that is in memory an operation is a row of edits: a record is put in
a slot, one is deleted, a column of one is set, the table is made larger. What
each of these keeps is kept by the operation.
-/
namespace PaxosSolutions.XjPing
open Lib

/-- Only the index of a table differs. -/
def HashOnly (td u : RTbl) : Prop := u = { td with tHashEqual := u.tHashEqual }

namespace RTbl

def hashAddAll (td : RTbl) (r : RRec) (i : ℕ) : RTbl :=
  td.tScm.foldl (fun td ip => td.hashAdd ip r i) td

def hashDelList (td : RTbl) (items : List RItem) (r : RRec) (i : ℕ) : RTbl :=
  items.foldl (fun td ip => td.hashDel ip r i) td

/-- A new record in the slot `i`. -/
def insertAt (td : RTbl) (ud : Usr) (mode : RLock) (data : List UInt8) (i : ℕ) : RTbl :=
  let r := (td.tRec i).inserted ud mode data i
  let td := (td.setRec i r).hashAddAll r i
  { td with
    tRecUsed := td.tRecUsed + 1
    uAdded := Function.update td.uAdded ud (td.uAdded ud + 1)
    tUnusedIndex := i + 1
    tUpdate := true }

/-- The slot `i` after a delete. -/
def deleteAt (td : RTbl) (ud : Usr) (i : ℕ) : RTbl :=
  let r := td.tRec i
  let td := (td.hashDelList td.tScm r i).setRec i (r.deleted ud)
  { td with
    tRecUsed := td.tRecUsed - 1
    uAdded := Function.update td.uAdded ud (td.uAdded ud - 1)
    tUnusedIndex := if i < td.tUnusedIndex then i else td.tUnusedIndex
    tUpdate := true }

/-- One column of the slot `i` is set. -/
def setItemAt (td : RTbl) (ip : RItem) (i : ℕ) (data : List UInt8) : RTbl :=
  let r := td.tRec i
  ((td.hashDel ip r i).setRec i (r.setData data)).hashAdd ip (r.setData data) i

/-- A column of the slot `i` that could not be set. -/
def keepItemAt (td : RTbl) (ip : RItem) (i : ℕ) : RTbl :=
  (td.hashDel ip (td.tRec i) i).hashAdd ip (td.tRec i) i

/-- A record of the slot `i` that is written as a whole. -/
def updateAt (td : RTbl) (ud : Usr) (mode : RLock) (data : List UInt8) (i : ℕ) : RTbl :=
  td.setRec i (((td.tRec i).setData data).updated ud mode)

/-- The flags of the slot `i` after an update. -/
def markAt (td : RTbl) (ud : Usr) (mode : RLock) (i : ℕ) : RTbl :=
  td.setRec i ((td.tRec i).updated ud mode)

/-- The lock of a record that a search has found. -/
def lockAt (td : RTbl) (ud : Usr) (mode : RLock) (i : ℕ) : RTbl :=
  td.setRec i { td.tRec i with rStat := (td.tRec i).rStat.setLock mode, rAccess := some ud }

/-- The first slot from the hint on that is not used. -/
def FirstFree (td : RTbl) (i : ℕ) : Prop :=
  td.tUnusedIndex ≤ i ∧ i < td.tRecNum ∧ (td.tRec i).rStat.used = false ∧
    ∀ j, td.tUnusedIndex ≤ j → j < i → (td.tRec j).rStat.used = true

/-- There is no unused slot from the hint on. -/
def Full (td : RTbl) : Prop :=
  ∀ j, td.tUnusedIndex ≤ j → j < td.tRecNum → (td.tRec j).rStat.used = true

/-- The slots of the used records that a `WHERE` accepts. -/
def chosen (td : RTbl) (wp : RHead → Bool) : List ℕ :=
  (List.range td.tRecNum).filter fun i => (td.tRec i).rStat.used && wp (td.tRec i).rHead

end RTbl

variable {td u v : RTbl} {i j pn : ℕ} {ud : Usr} {mode : RLock} {r : RRec} {b : Bool} {e : RdbErr}
  {P E : RTbl → Prop}

/-! ### The index apart -/

theorem HashOnly.refl (td : RTbl) : HashOnly td td := rfl

theorem HashOnly.trans (h : HashOnly td u) (h' : HashOnly u v) : HashOnly td v := by
  unfold HashOnly at h h' ⊢
  calc v = { u with tHashEqual := v.tHashEqual } := h'
    _ = { td with tHashEqual := v.tHashEqual } :=
        congrArg (fun t : RTbl => { t with tHashEqual := v.tHashEqual }) h

theorem HashOnly.tRec (h : HashOnly td u) : u.tRec = td.tRec := by rw [h]

theorem HashOnly.tRecNum (h : HashOnly td u) : u.tRecNum = td.tRecNum := by rw [h]

theorem HashOnly.tRecUsed (h : HashOnly td u) : u.tRecUsed = td.tRecUsed := by rw [h]

theorem HashOnly.tUnusedIndex (h : HashOnly td u) : u.tUnusedIndex = td.tUnusedIndex := by rw [h]

theorem HashOnly.uAdded (h : HashOnly td u) : u.uAdded = td.uAdded := by rw [h]

theorem HashOnly.file (h : HashOnly td u) : u.file = td.file := by rw [h]

theorem hashAdd_only (ip : RItem) : HashOnly td (td.hashAdd ip r i) := by
  unfold RTbl.hashAdd
  split
  · split <;> rfl
  · rfl

theorem hashDel_only (ip : RItem) : HashOnly td (td.hashDel ip r i) := by
  unfold RTbl.hashDel
  split
  · split
    · split <;> rfl
    · rfl
  · rfl

theorem foldl_only {ι : Type} {f : RTbl → ι → RTbl} (hf : ∀ td i, HashOnly td (f td i)) (l : List ι) :
    HashOnly td (l.foldl f td) := by
  induction l generalizing td with
  | nil => exact HashOnly.refl td
  | cons i l ih => exact (hf td i).trans ih

theorem hashAddAll_only : HashOnly td (td.hashAddAll r i) :=
  foldl_only (fun _ ip => hashAdd_only ip) _

theorem hashDelList_only (items : List RItem) : HashOnly td (td.hashDelList items r i) :=
  foldl_only (fun _ ip => hashDel_only ip) items

/-! ### Steps on a table in memory -/

theorem gives_throwIf (hE : ∀ s, P s → E s) :
    Gives P (throwIf b e) (fun _ s => P s ∧ b = false) E := by
  unfold throwIf
  cases b with
  | true => exact Gives.throw.weaken hE (fun _ _ h => h) fun _ h => h
  | false => exact Gives.pure.weaken (fun s hs => ⟨hs, rfl⟩) (fun _ _ h => h) fun _ h => h

theorem gives_faultIf {f : TblFault} : Gives P (faultIf b f) (fun _ s => P s ∧ b = false) E := by
  unfold faultIf
  cases b with
  | true => exact Gives.fault
  | false => exact Gives.pure.weaken (fun s hs => ⟨hs, rfl⟩) (fun _ _ h => h) fun _ h => h

/-- A slot that is not cached is a fault. -/
theorem gives_slot : Gives P (slot noLoad i pn)
    (fun r s => P s ∧ r = s.tRec i ∧ r.rStat.cache = true) E := by
  refine Gives.each fun s hs => ?_
  by_cases hc : (s.tRec i).rStat.cache = true
  · exact Gives.of_perform (perform_slot_cached hc pn) ⟨hs, rfl, hc⟩
  · have hcached : perform (cached noLoad i pn) s = .error .lost := by
      unfold cached
      rw [perform_bind_of_ok perform_get, if_neg hc]
      rfl
    refine Gives.of_fault (x := .lost) ?_
    unfold slot
    rw [perform_bind, hcached]
    rfl

/-- The columns of the record in the slot `i`, of which a file could not be
deleted. -/
def DeleteFails (unlink : List UInt8 → Bool) (td : RTbl) (i : ℕ) (u : RTbl) : Prop :=
  ∃ items, items <+: td.tScm ∧ u = td.hashDelList items (td.tRec i) i ∧
    ∃ ip ∈ items, ip.iAttr = .bytes ∧
      unlink (((td.tRec i).rHead.data.drop (ip.iOff + 4)).take ip.iLen) = false

theorem gives_deleteCols (unlink : List UInt8 → Bool) (items : List RItem) :
    Gives (fun s => s = td) (deleteCols unlink i r items)
      (fun _ s => s = td.hashDelList items r i)
      fun s => ∃ done, done <+: items ∧ s = td.hashDelList done r i ∧ ∃ ip ∈ done,
        ip.iAttr = .bytes ∧ unlink ((r.rHead.data.drop (ip.iOff + 4)).take ip.iLen) = false := by
  induction items generalizing td with
  | nil => exact Gives.pure.weaken (fun s hs => hs) (fun _ _ h => h) fun _ h => h
  | cons ip items ih =>
      have hthrow : Gives (fun s => s = td.hashDel ip r i)
          (throwIf (ip.iAttr = .bytes && !unlink ((r.rHead.data.drop (ip.iOff + 4)).take ip.iLen))
            .fileDelete) (fun _ s => s = td.hashDel ip r i) fun s => s = td.hashDel ip r i ∧
              ip.iAttr = .bytes ∧
                unlink ((r.rHead.data.drop (ip.iOff + 4)).take ip.iLen) = false := by
        unfold throwIf
        split
        · next h =>
            refine Gives.throw.weaken (fun s hs => ⟨hs, ?_⟩) (fun _ _ h => h) fun _ h => h
            simpa using h
        · exact Gives.pure.weaken (fun s hs => hs) (fun _ _ h => h) fun _ h => h
      refine Gives.bind (Q := fun _ s => s = td.hashDel ip r i) ?_ fun _ => ?_
      · refine Gives.bind (Q := fun _ s => s = td.hashDel ip r i) ?_ fun _ => ?_
        · exact Gives.modify fun s hs => congrArg (fun t : RTbl => t.hashDel ip r i) hs
        · refine hthrow.weaken (fun s hs => hs) (fun _ _ h => h) ?_
          rintro s ⟨hs, hattr, hfail⟩
          exact ⟨[ip], ⟨items, rfl⟩, hs, ip, List.mem_cons_self, hattr, hfail⟩
      · refine ih.weaken (fun s hs => hs) (fun _ s hs => hs) ?_
        rintro s ⟨done, ⟨rest, hrest⟩, hs, c, hc, hfail⟩
        exact ⟨ip :: done, ⟨rest, by rw [List.cons_append, hrest]⟩, hs, c,
          List.mem_cons_of_mem ip hc, hfail⟩

theorem gives_deleteRec (unlink : List UInt8 → Bool) :
    Gives (fun s => s = td) (deleteRec unlink ud i (td.tRec i)) (fun _ s => s = td.deleteAt ud i)
      (DeleteFails unlink td i) := by
  refine Gives.getBind fun s hs => ?_
  subst hs
  refine (gives_deleteCols unlink s.tScm).bind fun _ => ?_
  exact Gives.of_perform (a := ()) rfl rfl

/-! ### Insert -/

theorem perform_insertRec (data : List UInt8) : perform (insertRec ud mode data i (td.tRec i)) td =
    .ok (.ok (), td.insertAt ud mode data i) := rfl

theorem gives_findUnused (pn k i : ℕ) : Gives (fun s => s = td) (findUnused noLoad pn k i)
    (fun x s => s = td ∧
      (∀ y, x = some y → i ≤ y.1 ∧ y.1 < i + k ∧ y.2 = td.tRec y.1 ∧
        (td.tRec y.1).rStat.used = false ∧
          ∀ j, i ≤ j → j < y.1 → (td.tRec j).rStat.used = true) ∧
      (x = none → ∀ j, i ≤ j → j < i + k → (td.tRec j).rStat.used = true)) E := by
  induction k generalizing i with
  | zero =>
      refine Gives.of_perform (a := none) rfl ⟨rfl, fun y hy => ?_, fun _ j hj hlt => ?_⟩
      · cases hy
      · omega
  | succ k ih =>
      refine gives_slot.bind fun r => ?_
      by_cases hu : r.rStat.used = true
      · rw [if_pos hu]
        refine Gives.each fun s hs => ?_
        obtain ⟨rfl, hr, -⟩ := hs
        refine (ih (i + 1)).weaken (fun _ h => h) ?_ fun _ h => h
        rintro x t ⟨rfl, hsome, hnone⟩
        refine ⟨rfl, fun y hy => ?_, fun hx j hj hlt => ?_⟩
        · obtain ⟨hle, hlt, hy2, hfree, hused⟩ := hsome y hy
          refine ⟨by omega, by omega, hy2, hfree, fun j hj hlt => ?_⟩
          rcases Nat.eq_or_lt_of_le hj with rfl | hj
          · rw [← hr]
            exact hu
          · exact hused j hj hlt
        · rcases Nat.eq_or_lt_of_le hj with rfl | hj
          · rw [← hr]
            exact hu
          · exact hnone hx j hj (by omega)
      · rw [if_neg hu]
        refine Gives.each fun s hs => ?_
        obtain ⟨rfl, hr, -⟩ := hs
        refine Gives.of_perform (a := some (i, r)) rfl ⟨rfl, fun y hy => ?_, fun hx => ?_⟩
        · cases hy
          refine ⟨Nat.le_refl i, by omega, hr, ?_, fun j hj hlt => ?_⟩
          · rw [← hr]
            exact Bool.eq_false_iff.mpr hu
          · omega
        · cases hx

/-- The slot of a new record is the first free one, or the table has been
extended for it. -/
theorem gives_freeSlot : Gives (fun s => s = td) (freeSlot noLoad)
    (fun x s => x.2 = s.tRec x.1 ∧ ((s = td ∧ td.FirstFree x.1) ∨
      (s = td.extended ∧ td.Full ∧ 0 < td.tRecNum ∧ x.1 = td.tRecNum))) E := by
  refine Gives.getBind fun s hs => ?_
  subst hs
  refine (gives_findUnused _ _ _).bind fun found => ?_
  refine Gives.each fun t ht => ?_
  obtain ⟨rfl, hsome, hnone⟩ := ht
  cases found with
  | some x =>
      obtain ⟨hle, hlt, hx, hfree, hused⟩ := hsome x rfl
      exact Gives.of_perform (a := x) rfl ⟨hx, .inl ⟨rfl, hle, by omega, hfree, hused⟩⟩
  | none =>
      have hfull : t.Full := fun j hj hlt => hnone rfl j hj (by omega)
      by_cases hswap : ((List.range t.tRecNum).any fun i => (t.tRec i).rStat.swap) = true
      · exact Gives.of_fault (by rw [perform_extend, if_pos hswap])
      · by_cases hn : t.tRecNum = 0
        · exact Gives.of_fault (by rw [perform_extend, if_neg hswap, if_pos hn])
        · refine Gives.of_perform (by rw [perform_extend, if_neg hswap, if_neg hn]) ?_
          exact ⟨rfl, .inr ⟨rfl, hfull, by omega, rfl⟩⟩

/-- A new record is put in the first free slot, or in the first slot that the
extension of the table gives. -/
theorem gives_insertOne {Q : RTbl → Prop} (data : List UInt8)
    (hfree : ∀ s i, P s → s.FirstFree i → Q (s.insertAt ud mode data i))
    (hfull : ∀ s, P s → s.Full → 0 < s.tRecNum →
      Q (s.extended.insertAt ud mode data s.tRecNum)) :
    Gives P (insertOne noLoad ud mode data) (fun _ => Q) E := by
  refine Gives.each fun s hs => ?_
  refine gives_freeSlot.bind fun x => ?_
  refine Gives.each fun t ht => ?_
  obtain ⟨hx, hslot⟩ := ht
  rw [hx]
  refine Gives.of_perform (perform_insertRec data) ?_
  rcases hslot with ⟨rfl, hfirst⟩ | ⟨rfl, hall, hpos, hnum⟩
  · exact hfree t x.1 hs hfirst
  · rw [hnum]
    exact hfull s hs hall hpos

theorem gives_findItems (tScm : List RItem) (items : List String) :
    Gives P (findItems tScm items) (fun _ => P) P := by
  refine (Gives.mapM (A := fun _ _ => True) fun name _ => ?_).weaken (fun _ h => h)
    (fun _ _ h => h.1) fun _ h => h
  cases tScm.find? fun ip => ip.iName = name with
  | none =>
      cases tScm.isEmpty with
      | true => exact Gives.throw
      | false => exact Gives.fault
  | some ip => exact Gives.pure.weaken (fun s hs => ⟨hs, trivial⟩) (fun _ _ h => h) fun _ h => h

theorem gives_checkExist (index : List RItem) (same : List UInt8 → Bool) :
    Gives P (checkExist noLoad index same) (fun _ => P) P := by
  refine Gives.getBind fun s hs => ?_
  refine (Gives.forM (P := P) fun i _ => ?_).weaken (fun t ht => ht ▸ hs) (fun _ _ h => h) fun _ h => h
  refine gives_slot.bind fun r => ?_
  exact (gives_throwIf (P := P) fun _ h => h).weaken (fun _ h => h.1) (fun _ _ h => h.1) fun _ h => h

/-- `done` are the records that have been put in the table so far. -/
theorem gives_svcInsert {I : List (List UInt8) → RTbl → Prop} (items : List String)
    (recs : List (List UInt8))
    (hfree : ∀ done data rest s i, recs = done ++ data :: rest → I done s → s.FirstFree i →
      I (done ++ [data]) (s.insertAt ud mode data i))
    (hfull : ∀ done data rest s, recs = done ++ data :: rest → I done s → s.Full → 0 < s.tRecNum →
      I (done ++ [data]) (s.extended.insertAt ud mode data s.tRecNum)) :
    Gives (I []) (svcInsert noLoad ud items mode recs) (fun _ => I recs) (I []) := by
  refine Gives.getBind fun s hs => ?_
  refine Gives.weaken (P := I []) ?_ (fun t ht => ht ▸ hs) (fun _ _ h => h) fun _ h => h
  refine (gives_throwIf fun _ h => h).bind fun _ => ?_
  refine Gives.bind (Q := fun _ => I []) ?_ fun index => ?_
  · exact (gives_findItems s.tScm items).weaken (fun _ h => h.1) (fun _ _ h => h) fun _ h => h
  refine (gives_checkExist index _).bind fun _ => ?_
  refine Gives.forMDone recs fun done data rest hrecs => ?_
  exact gives_insertOne data (fun s i => hfree done data rest s i hrecs)
    fun s => hfull done data rest s hrecs

theorem gives_prcInsert {Q : RTbl → Prop} (items : List String) (data : List UInt8)
    (hfree : ∀ s i, P s → s.FirstFree i → Q (s.insertAt ud mode data i))
    (hfull : ∀ s, P s → s.Full → 0 < s.tRecNum →
      Q (s.extended.insertAt ud mode data s.tRecNum)) :
    Gives P (prcInsert noLoad ud items mode data) (fun _ => Q) P := by
  refine Gives.getBind fun s hs => ?_
  refine Gives.weaken (P := P) ?_ (fun t ht => ht ▸ hs) (fun _ _ h => h) fun _ h => h
  refine (gives_throwIf fun _ h => h).bind fun _ => ?_
  refine Gives.bind (Q := fun _ => P) ?_ fun index => ?_
  · exact (gives_findItems s.tScm items).weaken (fun _ h => h.1) (fun _ _ h => h) fun _ h => h
  exact (gives_checkExist index _).bind fun _ => gives_insertOne data hfree hfull

/-! ### Delete -/

theorem gives_svcDelete (unlink : List UInt8 → Bool) (recs : List ℤ)
    (hdel : ∀ abs ∈ recs, ∀ s, P s → abs.toNat < s.tRecNum →
      (s.tRec abs.toNat).rStat.used = true → (s.tRec abs.toNat).busyFor ud = false →
        P (s.deleteAt ud abs.toNat))
    (hfail : ∀ abs ∈ recs, ∀ s t, P s → abs.toNat < s.tRecNum →
      (s.tRec abs.toNat).rStat.used = true → DeleteFails unlink s abs.toNat t → P t) :
    Gives P (svcDelete noLoad unlink ud recs) (fun _ => P) P := by
  refine Gives.getBind fun s hs => ?_
  refine Gives.weaken (P := P) ?_ (fun t ht => ht ▸ hs) (fun _ _ h => h) fun _ h => h
  refine (gives_throwIf fun _ h => h).bind fun _ => ?_
  refine (Gives.forM (P := P) fun abs habs => ?_).weaken (fun _ h => h.1) (fun _ _ h => h) fun _ h => h
  refine Gives.getBind fun s hs => ?_
  refine (gives_throwIf fun t ht => ht ▸ hs).bind fun _ => ?_
  refine gives_slot.bind fun r => ?_
  refine (gives_throwIf fun t ht => ht.1.1 ▸ hs).bind fun _ => ?_
  refine (gives_throwIf fun t ht => ht.1.1.1 ▸ hs).bind fun _ => ?_
  refine Gives.each fun t ht => ?_
  obtain ⟨⟨⟨⟨rfl, hrange⟩, hr, -⟩, hused⟩, hbusy⟩ := ht
  rw [hr] at hused hbusy ⊢
  have hlt : abs.toNat < t.tRecNum := by
    simp only [Bool.or_eq_false_iff, decide_eq_false_iff_not] at hrange
    omega
  have hu : (t.tRec abs.toNat).rStat.used = true := by simpa using hused
  exact (gives_deleteRec unlink).weaken (fun _ h => h) (fun _ u h => h ▸ hdel abs habs t hs hlt hu hbusy)
    fun u h => hfail abs habs t u hs hlt hu h

theorem gives_whereLoop (wp : RHead → Bool) :
    Gives (fun s => s = td) (whereLoop noLoad wp) (fun found s => s = td ∧ found = td.chosen wp) E := by
  refine Gives.getBind fun s hs => ?_
  subst hs
  refine (Gives.mapM (A := fun i found => found =
    if (s.tRec i).rStat.used && wp (s.tRec i).rHead then [i] else []) fun i _ => ?_).bind
      fun found => ?_
  · refine gives_slot.bind fun r => ?_
    refine Gives.each fun t ht => ?_
    obtain ⟨rfl, rfl, -⟩ := ht
    exact Gives.of_perform rfl ⟨rfl, rfl⟩
  · refine Gives.each fun t ht => ?_
    obtain ⟨rfl, hfound⟩ := ht
    refine Gives.of_perform rfl ⟨rfl, ?_⟩
    unfold RTbl.chosen
    generalize List.range t.tRecNum = l at hfound
    induction hfound with
    | nil => rfl
    | @cons i x l xs hx _ ih =>
        rw [List.flatten_cons, ih, hx, List.filter_cons]
        split <;> rfl

theorem gives_prcDeleteRec (unlink : List UInt8 → Bool)
    (hdel : ∀ s, P s → (s.tRec i).rStat.used = true → (s.tRec i).busyFor ud = false →
      P (s.deleteAt ud i))
    (hfail : ∀ s t, P s → (s.tRec i).rStat.used = true → DeleteFails unlink s i t → P t) :
    Gives P (prcDeleteRec noLoad unlink ud i) (fun _ => P) P := by
  refine Gives.getBind fun s hs => ?_
  refine gives_slot.bind fun r => ?_
  by_cases hu : r.rStat.used = true
  · simp only [if_pos hu]
    refine (gives_throwIf fun t ht => ht.1 ▸ hs).bind fun _ => ?_
    refine Gives.each fun t ht => ?_
    obtain ⟨⟨rfl, hr, -⟩, hbusy⟩ := ht
    rw [hr] at hu hbusy ⊢
    exact (gives_deleteRec unlink).weaken (fun _ h => h) (fun _ u h => h ▸ hdel t hs hu hbusy)
      fun u h => hfail t u hs hu h
  · simp only [if_neg hu]
    exact Gives.pure.weaken (fun t ht => ht.1 ▸ hs) (fun _ _ h => h) fun _ h => h

/-- The loop of a statement goes over the records its `WHERE` accepts at its start. -/
theorem gives_prcDelete (unlink : List UInt8 → Bool) (wp : RHead → Bool) (htd : P td)
    (h : ∀ i ∈ td.chosen wp, Gives P (prcDeleteRec noLoad unlink ud i) (fun _ => P) P) :
    Gives (fun s => s = td) (prcDelete noLoad unlink ud wp) (fun _ => P) P := by
  refine Gives.getBind fun s hs => ?_
  subst hs
  refine (gives_throwIf fun t ht => ht ▸ htd).bind fun _ => ?_
  refine Gives.each fun t ht => ?_
  obtain ⟨rfl, -⟩ := ht
  refine (gives_whereLoop wp).bind fun found => ?_
  refine Gives.each fun u hu => ?_
  obtain ⟨rfl, rfl⟩ := hu
  exact (Gives.forM h).weaken (fun _ hv => hv ▸ htd) (fun _ _ h => h) fun _ h => h

/-! ### Update -/

/-- The checks of an update are made for all its records before one is written. -/
theorem gives_updateChecks (recs : List (ℤ × List UInt8)) :
    Gives (fun s => s = td) (recs.forM fun rp => updateCheck noLoad ud rp.1)
      (fun _ s => s = td ∧ ∀ rp ∈ recs, rp.1.toNat < td.tRecNum ∧
        (td.tRec rp.1.toNat).rStat.used = true ∧ (td.tRec rp.1.toNat).busyFor ud = false)
      (fun s => s = td) := by
  refine (Gives.forMDone (I := fun done s => s = td ∧ ∀ rp ∈ done, rp.1.toNat < td.tRecNum ∧
    (td.tRec rp.1.toNat).rStat.used = true ∧ (td.tRec rp.1.toNat).busyFor ud = false) recs
      fun done rp _ _ => ?_).weaken
      (fun s hs => ⟨hs, by simp⟩) (fun _ _ h => h) fun _ h => h
  refine Gives.getBind fun s hs => ?_
  obtain ⟨rfl, hdone⟩ := hs
  refine (gives_throwIf fun t ht => ht).bind fun _ => ?_
  refine gives_slot.bind fun r => ?_
  refine (gives_throwIf fun t ht => ht.1.1).bind fun _ => ?_
  refine (gives_throwIf fun t ht => ht.1.1.1).weaken (fun _ h => h) ?_ fun _ h => h
  rintro _ t ⟨⟨⟨⟨rfl, hrange⟩, hr, -⟩, hused⟩, hbusy⟩
  refine ⟨rfl, fun x hx => ?_⟩
  rcases List.mem_append.mp hx with hx | hx
  · exact hdone x hx
  · cases List.mem_singleton.mp hx
    simp only [Bool.or_eq_false_iff, decide_eq_false_iff_not] at hrange
    rw [hr] at hused hbusy
    exact ⟨by omega, by simpa using hused, hbusy⟩

theorem gives_svcUpdate (recs : List (ℤ × List UInt8)) (htd : P td.hashClear)
    (hup : ∀ rp ∈ recs, ∀ s, P s → rp.1.toNat < s.tRecNum →
      (s.tRec rp.1.toNat).rStat.used = true → (s.tRec rp.1.toNat).busyFor ud = false →
        P (s.updateAt ud mode rp.2 rp.1.toNat)) :
    Gives (fun s => s = td) (svcUpdate noLoad ud mode recs) (fun _ => P) P := by
  refine Gives.bind (Q := fun _ s => s = td.hashClear) ?_ fun _ => ?_
  · exact Gives.modify fun s hs => congrArg RTbl.hashClear hs
  refine Gives.getBind fun s hs => ?_
  subst hs
  refine (gives_throwIf fun t ht => ht ▸ htd).bind fun _ => ?_
  refine Gives.each fun t ht => ?_
  obtain ⟨rfl, -⟩ := ht
  refine ((gives_updateChecks recs).weaken (fun _ h => h) (fun _ _ h => h) fun t ht => ht ▸ htd).bind
    fun _ => ?_
  refine Gives.each fun t ht => ?_
  obtain ⟨rfl, hrecs⟩ := ht
  have hloop := Gives.forM (P := fun s => P s ∧ ∀ rp ∈ recs, rp.1.toNat < s.tRecNum ∧
      (s.tRec rp.1.toNat).rStat.used = true ∧ (s.tRec rp.1.toNat).busyFor ud = false) (l := recs)
      (f := fun rp => do
        let r ← slot noLoad rp.1.toNat td.hashClear.page
        setSlot rp.1.toNat ((r.setData rp.2).updated ud mode)) fun rp hrp => by
    refine gives_slot.bind fun r => ?_
    refine Gives.each fun s hs => ?_
    obtain ⟨⟨hP, hall⟩, rfl, -⟩ := hs
    obtain ⟨hlt, hused, hbusy⟩ := hall rp hrp
    refine Gives.of_perform rfl ⟨hup rp hrp s hP hlt hused hbusy, fun x hx => ?_⟩
    refine ⟨(hall x hx).1, ?_⟩
    by_cases hxi : x.1.toNat = rp.1.toNat
    · rw [hxi, setRec_self]
      exact ⟨hused, by simp [RRec.busyFor, RRec.updated]⟩
    · rw [setRec_ne _ hxi]
      exact (hall x hx).2
  exact hloop.weaken (fun s hs => hs ▸ ⟨htd, hrecs⟩) (fun _ _ h => h.1) fun _ h => h.1

/-- The columns of a `SET` list are set one after another. `done` are those that
have been set. -/
theorem gives_setItems {I : List (RItem × (List UInt8 → Option (List UInt8))) → RTbl → Prop}
    (sets : List (RItem × (List UInt8 → Option (List UInt8))))
    (hset : ∀ done x rest s data, sets = done ++ x :: rest → I done s →
      x.2 (s.tRec i).rHead.data = some data → I (done ++ [x]) (s.setItemAt x.1 i data))
    (hkeep : ∀ done x rest s, sets = done ++ x :: rest → I done s →
      x.2 (s.tRec i).rHead.data = none → E (s.keepItemAt x.1 i)) :
    Gives (fun s => I [] s ∧ r = s.tRec i) (setItems i sets r)
      (fun r s => I sets s ∧ r = s.tRec i) E := by
  suffices hloop : ∀ rest done r, sets = done ++ rest →
      Gives (fun s => I done s ∧ r = s.tRec i) (setItems i rest r)
        (fun r s => I sets s ∧ r = s.tRec i) E from hloop sets [] r rfl
  intro rest
  induction rest with
  | nil =>
      intro done r hsets
      rw [List.append_nil] at hsets
      subst hsets
      exact Gives.pure.weaken (fun s hs => hs) (fun _ _ h => h) fun _ h => h
  | cons x rest ih =>
      intro done r hsets
      refine Gives.each fun s hs => ?_
      obtain ⟨hI, rfl⟩ := hs
      unfold setItems
      refine Gives.bind (Q := fun _ t => t = s.hashDel x.1 (s.tRec i) i) ?_ fun _ => ?_
      · exact Gives.modify fun t ht => congrArg (fun u : RTbl => u.hashDel x.1 (s.tRec i) i) ht
      cases hx : x.2 (s.tRec i).rHead.data with
      | none =>
          refine Gives.bind (Q := fun _ t => t = s.keepItemAt x.1 i) ?_ fun _ => ?_
          · exact Gives.modify fun t ht => congrArg (fun u : RTbl => u.hashAdd x.1 (s.tRec i) i) ht
          · exact Gives.throw.weaken (fun t ht => ht ▸ hkeep done x rest s hsets hI hx)
              (fun _ _ h => h) fun _ h => h
      | some data =>
          have hnext := ih (done ++ [x]) ((s.tRec i).setData data) (by rw [hsets, List.append_assoc]; rfl)
          refine Gives.bind (Q := fun _ t =>
            t = (s.hashDel x.1 (s.tRec i) i).setRec i ((s.tRec i).setData data)) ?_ fun _ => ?_
          · exact Gives.modify fun t ht =>
              congrArg (fun u : RTbl => u.setRec i ((s.tRec i).setData data)) ht
          refine Gives.bind (Q := fun _ t => t = s.setItemAt x.1 i data) ?_ fun _ => ?_
          · exact Gives.modify fun t ht =>
              congrArg (fun u : RTbl => u.hashAdd x.1 ((s.tRec i).setData data) i) ht
          · refine hnext.weaken (fun t ht => ht ▸ ⟨hset done x rest s data hsets hI hx, ?_⟩)
              (fun _ _ h => h) fun _ h => h
            rw [RTbl.setItemAt, (hashAdd_only x.1).tRec, setRec_self]

theorem gives_prcUpdateRec {Q : RTbl → Prop}
    {I : List (RItem × (List UInt8 → Option (List UInt8))) → RTbl → Prop}
    (sets : List (RItem × (List UInt8 → Option (List UInt8))))
    (hstart : ∀ s, P s → (s.tRec i).rStat.used = true → (s.tRec i).busyFor ud = false → I [] s)
    (hset : ∀ done x rest s data, sets = done ++ x :: rest → I done s →
      x.2 (s.tRec i).rHead.data = some data → I (done ++ [x]) (s.setItemAt x.1 i data))
    (hkeep : ∀ done x rest s, sets = done ++ x :: rest → I done s →
      x.2 (s.tRec i).rHead.data = none → E (s.keepItemAt x.1 i))
    (hmark : ∀ s, I sets s → Q (s.markAt ud mode i)) (hskip : ∀ s, P s → Q s) (herr : ∀ s, P s → E s) :
    Gives P (prcUpdateRec noLoad ud mode sets i) (fun _ => Q) E := by
  refine Gives.getBind fun s hs => ?_
  refine gives_slot.bind fun r => ?_
  by_cases hu : r.rStat.used = true
  · simp only [if_pos hu]
    refine (gives_throwIf fun t ht => ht.1 ▸ herr s hs).bind fun _ => ?_
    refine Gives.bind (Q := fun r t => I sets t ∧ r = t.tRec i) ?_ fun r => ?_
    · refine (gives_setItems sets hset hkeep).weaken ?_ (fun _ _ h => h) fun _ h => h
      rintro t ⟨⟨rfl, hr, -⟩, hbusy⟩
      exact ⟨hstart t hs (hr ▸ hu) (hr ▸ hbusy), hr⟩
    · refine Gives.each fun t ht => ?_
      obtain ⟨hI, rfl⟩ := ht
      exact Gives.of_perform rfl (hmark t hI)
  · simp only [if_neg hu]
    exact Gives.pure.weaken (fun t ht => ht.1 ▸ hskip s hs) (fun _ _ h => h) fun _ h => h

theorem gives_prcUpdate {I : List ℕ → RTbl → Prop}
    (sets : List (RItem × (List UInt8 → Option (List UInt8)))) (wp : RHead → Bool) (htd : I [] td)
    (h : ∀ done i rest, td.chosen wp = done ++ i :: rest →
      Gives (I done) (prcUpdateRec noLoad ud mode sets i) (fun _ => I (done ++ [i])) E)
    (herr : E td) :
    Gives (fun s => s = td) (prcUpdate noLoad ud mode sets wp) (fun _ => I (td.chosen wp)) E := by
  refine Gives.getBind fun s hs => ?_
  subst hs
  refine (gives_throwIf fun t ht => ht ▸ herr).bind fun _ => ?_
  refine Gives.each fun t ht => ?_
  obtain ⟨rfl, -⟩ := ht
  refine (gives_whereLoop wp).bind fun found => ?_
  refine Gives.each fun u hu => ?_
  obtain ⟨rfl, rfl⟩ := hu
  exact (Gives.forMDone _ h).weaken (fun _ hv => hv ▸ htd) (fun _ _ h => h) fun _ h => h

/-! ### Find -/

/-- The cursor of a user after one step. -/
def RTbl.advanced (td : RTbl) (ud : Usr) : RTbl :=
  { td with uCursor := Function.update td.uCursor ud (td.uCursor ud + 1) }

theorem gives_lockFound (hc : P td) (hused : (td.tRec i).rStat.used = true)
    (hlock : mode.on = true → (td.tRec i).rStat.used = true → P (td.lockAt ud mode i)) :
    Gives (fun s => s = td) (lockFound ud mode i (td.tRec i))
      (fun _ s => P s ∧ s.tRecNum = td.tRecNum ∧ s.uCursor = td.uCursor) E := by
  unfold lockFound
  by_cases hon : mode.on = true
  · rw [if_pos hon]
    split
    · exact Gives.of_perform rfl ⟨hc, rfl, rfl⟩
    · exact Gives.of_perform rfl ⟨hlock hon hused, rfl, rfl⟩
  · rw [if_neg hon]
    split
    · exact Gives.of_perform rfl ⟨hc, rfl, rfl⟩
    · exact Gives.of_perform rfl ⟨hc, rfl, rfl⟩

theorem gives_findLoop (check : RHead → Option Bool) (num pn k : ℕ) (got : List RHead)
    (hadv : ∀ s, P s → P (s.advanced ud))
    (hlock : ∀ s i, P s → i < s.tRecNum → mode.on = true → (s.tRec i).rStat.used = true →
      P (s.lockAt ud mode i)) :
    Gives (fun s => P s ∧ (0 < k → s.uCursor ud + k ≤ s.tRecNum))
      (findLoop noLoad ud mode check num pn k got) (fun _ => P) P := by
  induction k generalizing got with
  | zero => exact Gives.pure.weaken (fun _ h => h.1) (fun _ _ h => h) fun _ h => h
  | succ k ih =>
      have hstep : ∀ s, P s → s.uCursor ud + (k + 1) ≤ s.tRecNum →
          Gives (fun t => t = s) (advance ud)
            (fun _ t => P t ∧ (0 < k → t.uCursor ud + k ≤ t.tRecNum)) P := by
        intro s hs hle
        refine Gives.of_perform (t := s.advanced ud) rfl ⟨hadv s hs, fun _ => ?_⟩
        have hcur : (s.advanced ud).uCursor ud = s.uCursor ud + 1 := Function.update_self ..
        have hnum : (s.advanced ud).tRecNum = s.tRecNum := rfl
        omega
      refine Gives.getBind fun s hs => ?_
      obtain ⟨hP, hle⟩ := hs
      have hle := hle (by omega)
      refine gives_slot.bind fun r => ?_
      refine Gives.each fun t ht => ?_
      obtain ⟨rfl, rfl, -⟩ := ht
      by_cases hu : (t.tRec (t.uCursor ud)).rStat.used = true
      · rw [if_pos hu]
        cases check (t.tRec (t.uCursor ud)).rHead with
        | none => exact Gives.of_perform rfl hP
        | some b =>
            cases b with
            | false => exact (hstep t hP hle).bind fun _ => ih got
            | true =>
                refine (gives_lockFound hP hu fun hon hu => hlock t _ hP (by omega) hon hu).bind
                  fun found => ?_
                refine Gives.each fun u hu => ?_
                obtain ⟨hPu, hnum, hcur⟩ := hu
                cases found with
                | none => exact Gives.of_perform rfl hPu
                | some r =>
                    refine (hstep u hPu (by rw [hnum, hcur]; exact hle)).bind fun _ => ?_
                    dsimp only
                    split
                    · exact Gives.pure.weaken (fun _ h => h.1) (fun _ _ h => h) fun _ h => h
                    · exact ih _
      · rw [if_neg hu]
        exact (hstep t hP hle).bind fun _ => ih got

theorem gives_svcFind (check : RHead → Option Bool) (num : ℕ)
    (hadv : ∀ s, P s → P (s.advanced ud))
    (hlock : ∀ s i, P s → i < s.tRecNum → mode.on = true → (s.tRec i).rStat.used = true →
      P (s.lockAt ud mode i)) :
    Gives P (svcFind noLoad ud mode check num) (fun _ => P) P := by
  refine Gives.getBind fun s hs => ?_
  refine (gives_throwIf fun t ht => ht ▸ hs).bind fun _ => ?_
  refine (gives_findLoop check num _ _ [] hadv hlock).weaken ?_ (fun _ _ h => h) fun _ h => h
  rintro t ⟨rfl, -⟩
  exact ⟨hs, fun hpos => by omega⟩

end PaxosSolutions.XjPing
