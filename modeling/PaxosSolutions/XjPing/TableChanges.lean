import PaxosSolutions.XjPing.TableCommit
import PaxosSolutions.XjPing.TableAccounts

/-!
# Changes by several users

As long as nobody changes a record that another user has put in or deleted and
not stored, each operation of a user changes slots of nobody else, and what is
not stored has one owner. So a store, a cancel and a rollback are about the
changes of their user, in every interleaving of the users.
-/
namespace PaxosSolutions.XjPing
open Lib

/-- The slots that the next inserts take. -/
def RTbl.freeSlots (td : RTbl) : List ℕ :=
  (List.range td.tRecNum).filter fun i => td.tUnusedIndex ≤ i && !(td.tRec i).rStat.used

/-- The user may write the record of the slot, though it is taken. -/
def RTbl.clashes (td : RTbl) (ud : Usr) (i : ℕ) : Bool :=
  (td.tRec i).rStat.used && !(td.tRec i).busyFor ud && td.taken ud i

/-- The `SET` list does not fail after its first column. -/
def setsFit (sets : List (RItem × (List UInt8 → Option (List UInt8)))) (data : List UInt8) : Bool :=
  (sets.foldlM (fun data (x : RItem × (List UInt8 → Option (List UInt8))) => x.2 data) data).isSome ||
    sets.head?.any fun x => (x.2 data).isNone

variable {td s u : RTbl} {who : ℕ → Option Usr} {i j n : ℕ} {ud : Usr} {mode : RLock} {r : RRec}
  {E : RTbl → Prop}

/-! ### Insert -/

theorem range_split (hi : i < n) :
    List.range n = List.range i ++ i :: List.range' (i + 1) (n - i - 1) := by
  have happ : List.range' 0 i ++ List.range' (0 + i) (n - i) = List.range' 0 (i + (n - i)) :=
    List.range'_append_1
  have hlen : n - i - 1 + 1 = n - i := by omega
  rw [List.range_eq_range', List.range_eq_range', ← List.range'_succ, hlen]
  rw [Nat.zero_add, Nat.add_sub_of_le (Nat.le_of_lt hi)] at happ
  exact happ.symm

/-- The first free slot is the first one of the free slots, and the others are
free after it is taken. -/
theorem freeSlots_cons (h : s.FirstFree i) (ud : Usr) (mode : RLock) (data : List UInt8) :
    s.freeSlots = i :: (s.insertAt ud mode data i).freeSlots := by
  obtain ⟨hle, hlt, hfree, hused⟩ := h
  have hhint : (s.insertAt ud mode data i).tUnusedIndex = i + 1 := rfl
  have hrest : ∀ j ∈ List.range' (i + 1) (s.tRecNum - i - 1),
      (decide (i + 1 ≤ j) && !((s.insertAt ud mode data i).tRec j).rStat.used) =
        (decide (s.tUnusedIndex ≤ j) && !(s.tRec j).rStat.used) := by
    intro j hj
    have hij := (List.mem_range'_1.mp hj).1
    rw [insertAt_tRec, setRec_ne _ (by omega)]
    simp [hij, Nat.le_trans hle (by omega : i ≤ j)]
  have hbefore : (List.range i).filter (fun j => s.tUnusedIndex ≤ j && !(s.tRec j).rStat.used) = [] := by
    rw [List.filter_eq_nil_iff]
    intro j hj
    by_cases hjh : s.tUnusedIndex ≤ j
    · simp [hused j hjh (List.mem_range.mp hj)]
    · simp [hjh]
  have hbefore' : (List.range i).filter
      (fun j => i + 1 ≤ j && !((s.insertAt ud mode data i).tRec j).rStat.used) = [] := by
    rw [List.filter_eq_nil_iff]
    intro j hj
    have hj := List.mem_range.mp hj
    have hji : ¬i + 1 ≤ j := by omega
    simp [hji]
  unfold RTbl.freeSlots
  rw [insertAt_tRecNum, hhint, range_split hlt, List.filter_append, List.filter_append, hbefore,
    hbefore', List.filter_cons, List.filter_cons, if_pos (by simp [hle, hfree]), if_neg (by simp),
    List.filter_congr hrest, List.nil_append, List.nil_append]

/-- After `m` inserts: the free slots are those of the start but the first `m`, or
all of them are taken. -/
def FreeFrom (td : RTbl) (m : ℕ) (s : RTbl) : Prop :=
  (s.tRecNum = td.tRecNum ∧ s.freeSlots = td.freeSlots.drop m) ∨
    (td.tRecNum < s.tRecNum ∧ td.tRecNum ≤ s.tUnusedIndex)

theorem FreeFrom.mem {m k : ℕ} (h : FreeFrom td m s) (hi : s.FirstFree i) (hlt : i < td.tRecNum)
    (hk : m < k) : i ∈ td.freeSlots.take k := by
  rcases h with ⟨-, hdrop⟩ | ⟨-, hhint⟩
  · rw [freeSlots_cons hi 0 {} []] at hdrop
    obtain ⟨k', rfl⟩ := Nat.exists_eq_add_of_lt hk
    rw [Nat.add_assoc, List.take_add, ← hdrop, List.take_succ_cons]
    exact List.mem_append_right _ List.mem_cons_self
  · have := hi.1
    omega

theorem FreeFrom.insertFree {m : ℕ} (h : FreeFrom td m s) (hi : s.FirstFree i) (data : List UInt8) :
    FreeFrom td (m + 1) (s.insertAt ud mode data i) := by
  rcases h with ⟨hnum, hdrop⟩ | ⟨hnum, hhint⟩
  · refine .inl ⟨(insertAt_tRecNum data).trans hnum, ?_⟩
    rw [freeSlots_cons hi ud mode data] at hdrop
    rw [← List.drop_drop, ← hdrop]
    rfl
  · refine .inr ⟨(insertAt_tRecNum data).symm ▸ hnum, ?_⟩
    have hle := hi.1
    have hhint' : (s.insertAt ud mode data i).tUnusedIndex = i + 1 := rfl
    omega

theorem FreeFrom.insertFull {m : ℕ} (h : FreeFrom td m s) (hpos : 0 < s.tRecNum) (data : List UInt8) :
    FreeFrom td (m + 1) (s.extended.insertAt ud mode data s.tRecNum) := by
  have hnum : (s.extended.insertAt ud mode data s.tRecNum).tRecNum = s.tRecNum * 2 := insertAt_tRecNum data
  have hhint : (s.extended.insertAt ud mode data s.tRecNum).tUnusedIndex = s.tRecNum + 1 := rfl
  refine .inr ?_
  rcases h with ⟨hs, -⟩ | ⟨hs, -⟩ <;> omega

/-- None of the next `k` free slots is taken. -/
def RTbl.roomFor (td : RTbl) (ud : Usr) (k : ℕ) : Bool :=
  (td.freeSlots.take k).all fun i => !td.taken ud i

theorem Edited.insertFree {m k : ℕ} (h : Edited td who ud s) (h0 : Owned td who)
    (hfrom : FreeFrom td m s) (hfit : td.roomFor ud k = true) (hk : m < k) (hi : s.FirstFree i)
    (data : List UInt8) : Edited td who ud (s.insertAt ud mode data i) := by
  have htaken : s.taken ud i = false := by
    by_contra ht
    obtain ⟨hlt, hsame⟩ := h.same_of_taken h0 hi.2.1 (by simpa using ht)
    have hnot := List.all_eq_true.mp hfit i (hfrom.mem hi hlt hk)
    rw [← h.taken_eq hsame] at hnot
    exact ht (by simpa using hnot)
  exact h.edit h0 hi.2.1 htaken (insertAt_edit (h.owned.allIn i hi.2.1) hi.2.2.1 data) (.inr rfl)

theorem Edited.insertFull (h : Edited td who ud s) (h0 : Owned td who) (hpos : 0 < s.tRecNum)
    (data : List UInt8) : Edited td who ud (s.extended.insertAt ud mode data s.tRecNum) := by
  have hext := h.extended
  have hlt : s.tRecNum < s.extended.tRecNum := by
    have hnum : s.extended.tRecNum = s.tRecNum * 2 := rfl
    omega
  have hat : (s.extended.tRec s.tRecNum).rStat.used = false ∧
      (s.extended.tRec s.tRecNum).rStat.dirty = false := by
    rw [extended_tRec, if_neg (Nat.lt_irrefl _), if_pos (by omega)]
    exact ⟨rfl, rfl⟩
  have htaken : s.extended.taken ud s.tRecNum = false := by
    rw [RTbl.taken, hat.2]
    rfl
  exact hext.edit h0 hlt htaken (insertAt_edit (hext.owned.allIn _ hlt) hat.1 data) (.inr rfl)

theorem gives_insert_edited (h : Owned td who) (items : List String) (recs : List (List UInt8))
    (hfit : td.roomFor ud recs.length = true) :
    Gives (fun s => s = td) (svcInsert noLoad ud items mode recs)
      (fun _ s => Edited td who ud s) (Edited td who ud) := by
  have hstart : Edited td who ud td ∧ FreeFrom td 0 td := ⟨h.edited ud, .inl ⟨rfl, rfl⟩⟩
  refine (gives_svcInsert (I := fun done s => Edited td who ud s ∧ FreeFrom td done.length s) items
    recs (fun done data rest s i hrecs hs hi => ?_) fun done data rest s _ hs _ hpos => ?_).weaken
      (fun s hs => hs ▸ hstart) (fun _ _ h => h.1) fun _ h => h.1
  · rw [List.length_append]
    have hlt : done.length < recs.length := by
      rw [hrecs]
      simp
    exact ⟨hs.1.insertFree h hs.2 hfit hlt hi data, hs.2.insertFree hi data⟩
  · rw [List.length_append]
    exact ⟨hs.1.insertFull h hpos data, hs.2.insertFull hpos data⟩

theorem gives_insertSql_edited (h : Owned td who) (items : List String) (data : List UInt8)
    (hfit : td.roomFor ud 1 = true) :
    Gives (fun s => s = td) (prcInsert noLoad ud items mode data)
      (fun _ s => Edited td who ud s) (Edited td who ud) := by
  have hstart : Edited td who ud td ∧ FreeFrom td 0 td := ⟨h.edited ud, .inl ⟨rfl, rfl⟩⟩
  refine (gives_prcInsert (P := fun s => Edited td who ud s ∧ FreeFrom td 0 s) items data
    (fun s i hs hi => ?_) fun s hs _ hpos => ?_).weaken
      (fun s hs => hs ▸ hstart) (fun _ _ h => h) fun _ h => h.1
  · exact hs.1.insertFree h hs.2 hfit Nat.one_pos hi data
  · exact hs.1.insertFull h hpos data

/-! ### Delete and update -/

/-- A record that the user may write is not taken, if it was not at the start. -/
theorem Edited.not_taken (h : Edited td who ud s) (h0 : Owned td who) (hi : i < s.tRecNum)
    (hused : (s.tRec i).rStat.used = true) (hbusy : (s.tRec i).busyFor ud = false)
    (hfit : td.clashes ud i = false) : s.taken ud i = false := by
  by_contra ht
  have ht : s.taken ud i = true := by simpa using ht
  obtain ⟨-, hsame⟩ := h.same_of_taken h0 hi ht
  rw [RTbl.clashes, ← hsame, hused, hbusy, ← h.taken_eq hsame, ht] at hfit
  cases hfit

/-- The operation has made no new slots. -/
def EditedIn (td : RTbl) (who : ℕ → Option Usr) (ud : Usr) (s : RTbl) : Prop :=
  Edited td who ud s ∧ s.tRecNum = td.tRecNum

theorem EditedIn.hash (h : EditedIn td who ud s) (hu : HashOnly s u) : EditedIn td who ud u :=
  ⟨h.1.hash hu, hu.tRecNum.trans h.2⟩

theorem EditedIn.edit (h : EditedIn td who ud s) (h0 : Owned td who) (hi : i < s.tRecNum)
    (hused : (s.tRec i).rStat.used = true) (hbusy : (s.tRec i).busyFor ud = false)
    (hfit : td.clashes ud i = false) (hr : Edit s ud i r u) : EditedIn td who ud u :=
  ⟨h.1.edit h0 hi (h.1.not_taken h0 hi hused hbusy hfit) hr (.inl (h.2 ▸ hi)), hr.num.trans h.2⟩

theorem EditedIn.deleteFails {unlink : List UInt8 → Bool} (h : EditedIn td who ud s)
    (hu : DeleteFails unlink s i u) : EditedIn td who ud u := by
  obtain ⟨items, -, rfl, -⟩ := hu
  exact h.hash (hashDelList_only items)

theorem gives_delete_edited (h : Owned td who) (unlink : List UInt8 → Bool) (recs : List ℤ)
    (hfit : (recs.all fun abs => !td.clashes ud abs.toNat) = true) :
    Gives (fun s => s = td) (svcDelete noLoad unlink ud recs)
      (fun _ s => Edited td who ud s) (Edited td who ud) := by
  have hstart : EditedIn td who ud td := ⟨h.edited ud, rfl⟩
  refine (gives_svcDelete (P := EditedIn td who ud) unlink recs
    (fun abs habs s hs hlt hused hbusy => ?_) fun _ _ s t hs _ _ ht => hs.deleteFails ht).weaken
      (fun s hs => hs ▸ hstart) (fun _ _ h => h.1) fun _ h => h.1
  have hclash : td.clashes ud abs.toNat = false := by
    simpa using List.all_eq_true.mp hfit abs habs
  exact hs.edit h hlt hused hbusy hclash (deleteAt_edit (hs.1.owned.allIn _ hlt) hused)

theorem gives_deleteSql_edited (h : Owned td who) (unlink : List UInt8 → Bool) (wp : RHead → Bool)
    (hfit : ((td.chosen wp).all fun i => !td.clashes ud i) = true) :
    Gives (fun s => s = td) (prcDelete noLoad unlink ud wp)
      (fun _ s => Edited td who ud s) (Edited td who ud) := by
  refine (gives_prcDelete (P := EditedIn td who ud) unlink wp ⟨h.edited ud, rfl⟩
    fun i hi => ?_).weaken (fun _ h => h) (fun _ _ h => h.1) fun _ h => h.1
  have hlt : i < td.tRecNum := List.mem_range.mp (List.mem_filter.mp hi).1
  have hclash : td.clashes ud i = false := by simpa using List.all_eq_true.mp hfit i hi
  refine gives_prcDeleteRec unlink (fun s hs hused hbusy => ?_) fun s t hs _ ht => hs.deleteFails ht
  have hlt' : i < s.tRecNum := hs.2 ▸ hlt
  exact hs.edit h hlt' hused hbusy hclash (deleteAt_edit (hs.1.owned.allIn _ hlt') hused)

theorem gives_update_edited (h : Owned td who) (recs : List (ℤ × List UInt8))
    (hfit : (recs.all fun rp => !td.clashes ud rp.1.toNat) = true) :
    Gives (fun s => s = td) (svcUpdate noLoad ud mode recs)
      (fun _ s => Edited td who ud s) (Edited td who ud) := by
  refine (gives_svcUpdate (P := EditedIn td who ud) recs ⟨(h.edited ud).hash rfl, rfl⟩
    fun rp hrp s hs hlt hused hbusy => ?_).weaken (fun _ h => h) (fun _ _ h => h.1) fun _ h => h.1
  have hclash : td.clashes ud rp.1.toNat = false := by
    simpa using List.all_eq_true.mp hfit rp hrp
  exact hs.edit h hlt hused hbusy hclash
    (updated_edit (hs.1.owned.allIn _ hlt) (hs.1.owned.head _ hlt) (HashOnly.refl _))

abbrev SetItem := RItem × (List UInt8 → Option (List UInt8))

/-- Columns of the record in the slot `i` of `s` have been set, and nothing else
has been done. -/
structure SetsDone (s : RTbl) (i : ℕ) (done : List SetItem) (t : RTbl) : Prop where
  data : done.foldlM (fun data (x : SetItem) => x.2 data) (s.tRec i).rHead.data =
    some (t.tRec i).rHead.data
  rest : HashOnly (s.setRec i ((s.tRec i).setData (t.tRec i).rHead.data)) t

theorem setRec_same (s : RTbl) (i : ℕ) : s.setRec i ((s.tRec i).setData (s.tRec i).rHead.data) = s :=
  congrArg (fun f => { s with tRec := f }) (Function.update_eq_self i s.tRec)

theorem SetsDone.start (s : RTbl) (i : ℕ) : SetsDone s i [] s := by
  refine ⟨rfl, ?_⟩
  rw [setRec_same]
  exact HashOnly.refl s

theorem HashOnly.setRec (h : HashOnly td u) (i : ℕ) (r : RRec) :
    HashOnly (td.setRec i r) (u.setRec i r) := by
  unfold HashOnly RTbl.setRec at *
  rw [h]

theorem setRec_setRec (r r' : RRec) : (td.setRec i r).setRec i r' = td.setRec i r' :=
  congrArg (fun f => { td with tRec := f }) (Function.update_idem ..)

theorem SetsDone.tRec {done : List SetItem} {t : RTbl} (h : SetsDone s i done t) :
    t.tRec i = (s.tRec i).setData (t.tRec i).rHead.data := by
  have hrec := congrFun h.rest.tRec i
  rwa [setRec_self] at hrec

theorem SetsDone.set {done : List SetItem} {t : RTbl} {x : SetItem} {data : List UInt8}
    (h : SetsDone s i done t) (hx : x.2 (t.tRec i).rHead.data = some data) :
    SetsDone s i (done ++ [x]) (t.setItemAt x.1 i data) := by
  have honly : HashOnly (t.setRec i ((t.tRec i).setData data)) (t.setItemAt x.1 i data) :=
    ((hashDel_only x.1).setRec i _).trans (hashAdd_only x.1)
  have hat : (t.setItemAt x.1 i data).tRec i = (t.tRec i).setData data := by
    rw [honly.tRec, setRec_self]
  refine ⟨?_, ?_⟩
  · rw [List.foldlM_append, h.data, hat]
    change (x.2 (t.tRec i).rHead.data).bind some = _
    rw [hx]
    rfl
  · have hbase := h.rest.setRec i ((t.tRec i).setData data)
    rw [setRec_setRec] at hbase
    have hrec : (s.tRec i).setData ((t.setItemAt x.1 i data).tRec i).rHead.data = (t.tRec i).setData data := by
      rw [hat, h.tRec]
      rfl
    rw [hrec]
    exact hbase.trans honly

/-- A list that fits fails before it has set a column. -/
theorem SetsDone.fails {done rest : List SetItem} {t : RTbl} {x : SetItem} (h : SetsDone s i done t)
    (hfit : setsFit (done ++ x :: rest) (s.tRec i).rHead.data = true)
    (hx : x.2 (t.tRec i).rHead.data = none) : done = [] := by
  have hnone : (done ++ x :: rest).foldlM (fun data (x : SetItem) => x.2 data) (s.tRec i).rHead.data =
      none := by
    rw [List.foldlM_append, h.data]
    change (do let d ← x.2 (t.tRec i).rHead.data; _) = _
    rw [hx]
    rfl
  rw [setsFit, hnone] at hfit
  cases done with
  | nil => rfl
  | cons y done =>
      have hy : y.2 (s.tRec i).rHead.data = none := by simpa using hfit
      have hdata := h.data
      rw [List.foldlM_cons, hy] at hdata
      cases hdata

/-- The records of the result that have not been reached are as at the start. -/
def EditedRest (td : RTbl) (who : ℕ → Option Usr) (ud : Usr) (l done : List ℕ) (s : RTbl) : Prop :=
  EditedIn td who ud s ∧ ∀ i ∈ l, i ∉ done → s.tRec i = td.tRec i

/-- The user may write the records that a `WHERE` accepts, and the `SET` list does
not fail after its first column on one of them. -/
def RTbl.setsFitFor (td : RTbl) (ud : Usr) (sets : List SetItem) (l : List ℕ) : Bool :=
  l.all fun i => !td.clashes ud i && ((td.tRec i).busyFor ud || setsFit sets (td.tRec i).rHead.data)

theorem gives_updateSqlRec_edited (h : Owned td who) (sets : List SetItem) {l done rest : List ℕ}
    (hl : l = done ++ i :: rest) (hnodup : l.Nodup) (hlt : i < td.tRecNum)
    (hfit : td.setsFitFor ud sets l = true) :
    Gives (EditedRest td who ud l done) (prcUpdateRec noLoad ud mode sets i)
      (fun _ => EditedRest td who ud l (done ++ [i])) (Edited td who ud) := by
  have hmem : i ∈ l := hl ▸ List.mem_append_right done List.mem_cons_self
  have hnew : i ∉ done := by
    rw [hl] at hnodup
    exact fun hi => (List.nodup_append.mp hnodup).2.2 i hi i List.mem_cons_self rfl
  have hfit := List.all_eq_true.mp hfit i hmem
  simp only [Bool.and_eq_true, Bool.or_eq_true, Bool.not_eq_true'] at hfit
  have hstep : ∀ s, EditedRest td who ud l done s → ∀ k ∈ l, k ∉ done ++ [i] → s.tRec k = td.tRec k :=
    fun s hs k hk hkd => hs.2 k hk fun hkd' => hkd (List.mem_append_left _ hkd')
  refine gives_prcUpdateRec (I := fun setsDone t => ∃ s, EditedRest td who ud l done s ∧
    (s.tRec i).rStat.used = true ∧ (s.tRec i).busyFor ud = false ∧ SetsDone s i setsDone t) sets
      (fun s hs hused hbusy => ⟨s, hs, hused, hbusy, SetsDone.start s i⟩) ?_ ?_ ?_
        (fun s hs => ⟨hs.1, hstep s hs⟩) fun s hs => hs.1.1
  · rintro setsDone x setsRest t data - ⟨s, hs, hused, hbusy, hdone⟩ hx
    exact ⟨s, hs, hused, hbusy, hdone.set hx⟩
  · rintro setsDone x setsRest t hsets ⟨s, hs, -, hbusy, hdone⟩ hx
    have hsets' : setsFit sets (s.tRec i).rHead.data = true := by
      rw [hs.2 i hmem hnew] at hbusy ⊢
      exact hfit.2.resolve_left (by simp [hbusy])
    have hnil : setsDone = [] := hdone.fails (hsets ▸ hsets') hx
    subst hnil
    have hdata : (t.tRec i).rHead.data = (s.tRec i).rHead.data := (Option.some.inj hdone.data).symm
    have hsame := hdone.rest
    rw [hdata, setRec_same] at hsame
    exact hs.1.1.hash (hsame.trans ((hashDel_only x.1).trans (hashAdd_only x.1)))
  · rintro t ⟨s, hs, hused, hbusy, hdone⟩
    have hlt' : i < s.tRecNum := hs.1.2 ▸ hlt
    have hmark : HashOnly (s.setRec i (((s.tRec i).setData (t.tRec i).rHead.data).updated ud mode))
        (t.markAt ud mode i) := by
      have hset : HashOnly _ (t.markAt ud mode i) := hdone.rest.setRec i ((t.tRec i).updated ud mode)
      have hrec : (t.tRec i).updated ud mode =
          ((s.tRec i).setData (t.tRec i).rHead.data).updated ud mode :=
        congrArg (fun r => r.updated ud mode) hdone.tRec
      rwa [setRec_setRec, hrec] at hset
    have hedit := updated_edit (hs.1.1.owned.allIn i hlt') (hs.1.1.owned.head i hlt') hmark
    refine ⟨hs.1.edit h hlt' hused hbusy hfit.1 hedit, fun k hk hkd => ?_⟩
    have hki : k ≠ i := fun hki => hkd (hki ▸ List.mem_append_right _ List.mem_cons_self)
    rw [hedit.ne hki]
    exact hstep s hs k hk hkd

theorem gives_updateSql_edited (h : Owned td who) (sets : List SetItem) (wp : RHead → Bool)
    (hfit : td.setsFitFor ud sets (td.chosen wp) = true) :
    Gives (fun s => s = td) (prcUpdate noLoad ud mode sets wp)
      (fun _ s => Edited td who ud s) (Edited td who ud) := by
  refine (gives_prcUpdate (I := EditedRest td who ud (td.chosen wp)) sets wp
    ⟨⟨h.edited ud, rfl⟩, fun _ _ _ => rfl⟩ (fun done i rest hl => ?_) (h.edited ud)).weaken
      (fun _ h => h) (fun _ _ h => h.1.1) fun _ h => h
  have hmem : i ∈ td.chosen wp := hl ▸ List.mem_append_right done List.mem_cons_self
  exact gives_updateSqlRec_edited h sets hl (List.nodup_range.filter _)
    (List.mem_range.mp (List.mem_filter.mp hmem).1) hfit

end PaxosSolutions.XjPing
