import PaxosSolutions.XjPing.TableChanges

/-!
# Runs of several users

With the table goes who has changed each slot last without having stored it. It
is read off the slots an operation has changed, and does not depend on what the
table keeps about its users.
-/
namespace PaxosSolutions.XjPing
open Lib

/-- Who has changes that are not stored after an operation. -/
def nextWho (td u : RTbl) (r : TblReply) (who : ℕ → Option Usr) : TblOp → ℕ → Option Usr
  | .insert ud _ _ _ => marked who ud td u
  | .insertSql ud _ _ _ => marked who ud td u
  | .delete _ ud _ => marked who ud td u
  | .deleteSql _ ud _ => marked who ud td u
  | .update ud _ _ => marked who ud td u
  | .updateSql ud _ _ _ => marked who ud td u
  | .store ud => if r.isOk then cleared who ud else who
  | .cancel ud => if r.isOk then cleared who ud else who
  | .rollback ud => if r.isOk then cleared who ud else who
  | _ => who

/-- The operation changes no record that another user has put in or deleted and
not stored. A search that locks and a compression are none of the operations. -/
def RTbl.opFits (td : RTbl) : TblOp → Bool
  | .insert ud _ _ recs => td.roomFor ud recs.length
  | .insertSql ud _ _ _ => td.roomFor ud 1
  | .delete _ ud recs => recs.all fun abs => !td.clashes ud abs.toNat
  | .deleteSql _ ud wp => (td.chosen wp).all fun i => !td.clashes ud i
  | .update ud _ recs => recs.all fun rp => !td.clashes ud rp.1.toNat
  | .updateSql ud _ sets wp => td.setsFitFor ud sets (td.chosen wp)
  | .find _ mode _ _ => !mode.on
  | .compress => false
  | _ => true

/-- What a store, a cancel or a rollback has done. -/
def EndDone (td u : RTbl) (r : TblReply) (who : ℕ → Option Usr) : TblOp → Prop
  | .store ud => Stored td u who ud
  | .cancel ud => r.isOk = true → TakenBack td u who ud
  | .rollback ud => TakenBack td u who ud
  | _ => True

variable {td u : RTbl} {who : ℕ → Option Usr} {ud : Usr} {mode : RLock} {n : ℕ}

theorem gives_find_owned (check : RHead → Option Bool) (num : ℕ) (hmode : mode.on = false) :
    Gives (fun s => Owned s who) (svcFind noLoad ud mode check num) (fun _ s => Owned s who)
      fun s => Owned s who := by
  refine gives_svcFind check num (fun _ hs => hs.apart rfl rfl rfl rfl rfl) fun s i _ _ hon _ => ?_
  rw [hmode] at hon
  cases hon

theorem gives_cancel_owned (h : Owned td who) :
    Gives (fun s => s = td) (svcCancel ud) (fun _ s => TakenBack td s who ud) fun s => s = td := by
  refine Gives.getBind fun s hs => ?_
  subst hs
  refine (gives_throwIf fun t ht => ht).bind fun _ => ?_
  refine Gives.modify fun t ht => ?_
  obtain ⟨rfl, -⟩ := ht
  exact h.cancel ud

theorem gives_store_owned {E : RTbl → Prop} (h : Owned td who) :
    Gives (fun s => s = td) (svcStore 0 td.tRecNum (some ud)) (fun _ s => Stored td s who ud) E := by
  by_cases hswap : ((List.range' 0 td.tRecNum).any fun i =>
      td.stores (some ud) i && (td.tRec i).rStat.swap) = true
  · exact Gives.of_fault (by rw [perform_svcStore, if_pos hswap])
  · exact Gives.of_perform (by rw [perform_svcStore, if_neg hswap]) (h.store ud)

/-- Each operation leaves one owner of what is not stored. -/
theorem eager_owned (h : Owned td who) {op : TblOp} {r : TblReply} (hfit : td.opFits op = true)
    (hr : perform (eagerProg op) td = .ok (r, u)) :
    Owned u (nextWho td u r who op) ∧ EndDone td u r who op := by
  cases op <;> simp only [eagerProg, tblProg] at hr
  case find ud mode check num =>
      have hmode : mode.on = false := by simpa [RTbl.opFits] using hfit
      have hfind : Gives (fun s => Owned s who) (svcFind noLoad ud mode check num)
          (fun _ s => Owned s who) fun s => Owned s who := gives_find_owned check num hmode
      refine ⟨?_, trivial⟩
      cases r with
      | ok x => exact (hfind td h).1 x u hr
      | error e => exact (hfind td h).2 e u hr
  case rewind ud =>
      cases hr
      exact ⟨h.apart rfl rfl rfl rfl rfl, trivial⟩
  case insert ud items mode recs =>
      have hins : Edited td who ud u := Gives.replies (gives_insert_edited h items recs hfit) rfl hr
      exact ⟨hins.owned, trivial⟩
  case insertSql ud items mode rp =>
      have hins : Edited td who ud u := Gives.replies (gives_insertSql_edited h items rp hfit) rfl hr
      exact ⟨hins.owned, trivial⟩
  case delete unlink ud recs =>
      have hdel : Edited td who ud u := Gives.replies (gives_delete_edited h unlink recs hfit) rfl hr
      exact ⟨hdel.owned, trivial⟩
  case deleteSql unlink ud wp =>
      have hdel : Edited td who ud u := Gives.replies (gives_deleteSql_edited h unlink wp hfit) rfl hr
      exact ⟨hdel.owned, trivial⟩
  case update ud mode recs =>
      have hup : Edited td who ud u := Gives.replies (gives_update_edited h recs hfit) rfl hr
      exact ⟨hup.owned, trivial⟩
  case updateSql ud mode sets wp =>
      have hup : Edited td who ud u := Gives.replies (gives_updateSql_edited h sets wp hfit) rfl hr
      exact ⟨hup.owned, trivial⟩
  case cancel ud =>
      rcases Gives.reply (gives_cancel_owned h) rfl hr with ⟨hok, hu⟩ | ⟨hok, rfl⟩
      · rw [nextWho, if_pos hok]
        exact ⟨hu.owned h, fun _ => hu⟩
      · rw [nextWho, if_neg (by simp [hok])]
        exact ⟨h, fun hok' => by simp [hok] at hok'⟩
  case rollback ud =>
      cases hr
      have hu := h.rollback ud
      exact ⟨hu.owned h, hu⟩
  case store ud =>
      rw [perform_bind_of_ok perform_get] at hr
      have hstore : Gives (fun s => s = td) (svcStore 0 td.tRecNum (some ud))
          (fun _ s => Stored td s who ud) fun _ => False := gives_store_owned h
      rcases Gives.reply hstore rfl hr with ⟨hok, hu⟩ | ⟨-, hu⟩
      · rw [nextWho, if_pos hok]
        exact ⟨hu.owned h, hu⟩
      · exact hu.elim
  case compress => cases hfit
  case swapOut =>
      cases hr
      exact ⟨h, trivial⟩
  case hold lock =>
      cases hr
      exact ⟨h.apart rfl rfl rfl rfl rfl, trivial⟩
  case users cnt =>
      cases hr
      exact ⟨h.apart rfl rfl rfl rfl rfl, trivial⟩

/-! ### Runs -/

/-- The loads of an operation are safe, and it changes no record that another
user has put in or deleted and not stored. -/
structure CommitFits (td : RTbl) (op : TblOp) : Prop where
  loads : LoadsFit td op
  slots : td.loaded.opFits op = true

instance (td : RTbl) (op : TblOp) : Decidable (CommitFits td op) :=
  decidable_of_iff (LoadsFit td op ∧ td.loaded.opFits op = true) ⟨fun h => ⟨h.1, h.2⟩, fun h => ⟨h.1, h.2⟩⟩

/-- The head of a file counts its used records, and past its end there are none. -/
structure FileEnds (file : TblFile) : Prop where
  used : file.recUsed = (List.range file.recNum).countP fun j => (file.recs j).rStat.used
  past : ∀ j, file.recNum ≤ j → (file.recs j).rStat.used = false

/-- A table and who has changed its slots, after one more operation. -/
def whoStep (s : RTbl × (ℕ → Option Usr)) (op : TblOp) :
    Except TblFault (RTbl × (ℕ → Option Usr)) :=
  (perform (tblProg svcLoad op) s.1).map fun x =>
    (x.2, nextWho s.1.loaded x.2.loaded x.1 s.2 op)

/-- The table when it is opened. -/
def whoOpen (file : TblFile) (tRecSize : ℕ) (tScm : List RItem) : RTbl × (ℕ → Option Usr) :=
  (tblOpen file tRecSize tScm, fun _ => none)

/-- The last operation of a run, if it is a store, has written the slots its user
has changed last and no others, and clears the flags of these; the head of the
file counts its used records. If it is a cancel or a rollback, these slots are as
in the file, and the records of the others are as they were. -/
def CommitExact (file : TblFile) (tRecSize : ℕ) (tScm : List RItem) (ops : List TblOp) (op : TblOp) :
    Prop :=
  ∃ td who r td', run whoStep (whoOpen file tRecSize tScm) ops = .ok (td, who) ∧
    perform (tblProg svcLoad op) td = .ok (r, td') ∧ EndDone td.loaded td'.loaded r who op ∧
    td'.tRecOriUsed = (List.range td'.tRecNum).countP fun j => (td'.file.recs j).rStat.used

theorem countP_eq_sum (p : ℕ → RStat) (n : ℕ) :
    ((List.range n).countP fun j => (p j).used : ℤ) = ∑ j ∈ Finset.range n, (p j).one := by
  induction n with
  | zero => rfl
  | succ n ih =>
      rw [countP_range_succ, Finset.sum_range_succ, ← ih, RStat.one]
      split_ifs <;> push_cast <;> omega

theorem Owned.count (h : Owned td who) :
    td.tRecOriUsed = (List.range td.tRecNum).countP fun j => (td.file.recs j).rStat.used := by
  rw [h.ori, RTbl.fileUsed, ← countP_eq_sum fun j => (td.file.recs j).rStat]

theorem tblOpen_owned {file : TblFile} (h : FileEnds file) (tRecSize : ℕ) (tScm : List RItem) :
    Owned (tblOpen file tRecSize tScm).loaded fun _ => none := by
  have hrec : ∀ j < file.recNum, (tblOpen file tRecSize tScm).loaded.tRec j =
      ((tblOpen file tRecSize tScm).tRec j).load (file.recs j) := fun j hj => loaded_of_lt hj
  refine ⟨loaded_allIn (tblOpen_settled file tRecSize tScm), fun j hj => ?_, fun j hj => ?_,
    fun j hj hd => ?_, fun j hj _ => ?_, fun j hj => ⟨rfl, h.past j hj⟩, fun ud => ?_, ?_⟩
  · rw [hrec j hj]
    rfl
  · rw [hrec j hj]
    rfl
  · rw [hrec j hj] at hd
    cases hd
  · rw [hrec j hj]
    exact ⟨rfl, rfl⟩
  · exact (Finset.sum_eq_zero fun j _ => if_neg (by simp)).symm
  · change file.recUsed = _
    rw [h.used, countP_eq_sum fun j => (file.recs j).rStat]
    rfl

theorem whoStep_owned {s t : RTbl × (ℕ → Option Usr)} {op : TblOp} (hset : Settled s.1)
    (h : Owned s.1.loaded s.2) (hop : CommitFits s.1 op) (hstep : whoStep s op = .ok t) :
    Settled t.1 ∧ Owned t.1.loaded t.2 := by
  obtain ⟨r, v, hr, hv, he, -⟩ := tblProg_eager hset hop.loads
  rw [whoStep, hr] at hstep
  cases hstep
  exact ⟨hv, (eager_owned h hop.slots he).1⟩

theorem whoRun_owned {s : RTbl × (ℕ → Option Usr)} {ops : List TblOp} (hset : Settled s.1)
    (h : Owned s.1.loaded s.2) (hops : Along whoStep (fun s op => CommitFits s.1 op) s ops) :
    ∃ t, run whoStep s ops = .ok t ∧ Settled t.1 ∧ Owned t.1.loaded t.2 := by
  induction ops generalizing s with
  | nil => exact ⟨s, rfl, hset, h⟩
  | cons op ops ih =>
      obtain ⟨r, v, hr, -⟩ := tblProg_eager hset hops.1.loads
      have hstep : whoStep s op = .ok (v, nextWho s.1.loaded v.loaded r s.2 op) := by
        rw [whoStep, hr]
        rfl
      obtain ⟨hset', h'⟩ := whoStep_owned hset h hops.1 hstep
      obtain ⟨t, hrun, ht⟩ := ih hset' h' (hops.2 _ hstep)
      exact ⟨t, by rw [run, hstep]; exact hrun, ht⟩

theorem usedFile_ends (n : ℕ) : FileEnds (usedFile n) := by
  refine ⟨(usedFile_fits n).used, fun j hj => ?_⟩
  unfold usedFile at hj ⊢
  dsimp only at hj ⊢
  rw [if_neg (Nat.not_lt.mpr hj)]

end PaxosSolutions.XjPing
