import PaxosSolutions.XjPing.TableDemand

/-!
# Runs with and without demand loading

A table that has all records loaded never loads one. As long as the loads of a
run are safe, it answers what such a table would answer, and no load takes a
change back.
-/
namespace PaxosSolutions.XjPing
open Lib

variable {td : RTbl} {i j s l : ℕ} {ud : Usr}

/-- A table with all records loaded has nothing to load. -/
def noLoad : Loader := fun _ _ => fault .lost

/-- A dirty record that a load has left as it was. -/
def RRec.keptIn (r r' : RRec) : Bool :=
  !r.rStat.dirty || (r'.rHead = r.rHead && r'.rStat.used = r.rStat.used &&
    r'.rStat.busy = r.rStat.busy && r'.rStat.insert = r.rStat.insert &&
      r'.rStat.update = r.rStat.update)

/-- The load that stops on a fault if it has changed a dirty record of its range. -/
def keepLoad : Loader := fun s l => do
  let td ← get
  svcLoad s l
  let td' ← get
  faultIf (!(td.range s l).all fun j => (td.tRec j).keptIn (td'.tRec j)) .lost

/-! ### The simulations -/

theorem Settled.loaded_swap (h : Settled td) (hj : j < td.tRecNum) :
    (td.loaded.tRec j).rStat.swap = false := by
  rw [loaded_of_lt hj]
  exact (resolve_inMemory h j).2

theorem settled_off {g : RTbl → RTbl} (hg : OffSlots g) (h : Settled td) : Settled (g td) := by
  intro j
  rw [hg.tRec]
  exact h j

theorem extend_follows :
    Follows Settled RTbl.loaded extend extend fun x => x.2.InMemory := by
  intro td r t h hr
  rw [perform_extend] at hr
  split_ifs at hr with hswap hn
  cases hr
  obtain ⟨hset, hcomm⟩ := extended_commutes h
  have hmem : (td.extended.tRec td.tRecNum).InMemory := by
    rw [extended_tRec, if_neg (by omega), if_pos (by omega)]
    exact ⟨rfl, rfl⟩
  have hswap' : ¬((List.range td.loaded.tRecNum).any fun i => (td.loaded.tRec i).rStat.swap) = true := by
    simp only [List.any_eq_true, List.mem_range, not_exists, not_and, Bool.not_eq_true]
    exact fun j hj => h.loaded_swap hj
  refine ⟨?_, hset, ?_⟩
  · rw [perform_extend, if_neg hswap', loaded_tRecNum, if_neg hn, ← hcomm, loaded_of_inMemory hmem]
  · intro a ha
    cases ha
    exact hmem

theorem shrink_follows (n : ℕ) :
    Follows Settled RTbl.loaded (shrink n) (shrink n) fun _ => True := by
  intro td r t h hr
  rw [perform_shrink] at hr
  rw [perform_shrink, loaded_tRecNum]
  by_cases hn : n < td.tRecNum
  · rw [if_pos hn] at hr ⊢
    split_ifs at hr with hswap
    cases hr
    obtain ⟨hset, hcomm⟩ := switched_commutes h hn
    have hswap' : ¬((List.range n).any fun i => (td.loaded.tRec i).rStat.swap) = true := by
      simp only [List.any_eq_true, List.mem_range, not_exists, not_and, Bool.not_eq_true]
      exact fun j hj => h.loaded_swap (Nat.lt_trans hj hn)
    rw [if_neg hswap', hcomm]
    exact ⟨rfl, hset, fun _ _ => trivial⟩
  · rw [if_neg hn] at hr ⊢
    cases hr
    exact ⟨rfl, h, fun _ _ => trivial⟩

theorem store_follows (n : ℕ) (ud : Option Usr) :
    Follows Settled RTbl.loaded (svcStore 0 n ud) (svcStore 0 n ud) fun _ => True := by
  intro td r t h hr
  rw [perform_svcStore] at hr
  split_ifs at hr with hswap
  cases hr
  have hstores : ∀ j < n, td.stores ud j = true → (td.tRec j).rStat.swap = false := by
    intro j hj hst
    by_contra hs
    refine hswap (List.any_eq_true.mpr ⟨j, List.mem_range'_1.mpr ⟨Nat.zero_le j, by omega⟩, ?_⟩)
    rw [hst, Bool.true_and]
    simpa using hs
  obtain ⟨hset, hcomm, -⟩ := storeAll_commutes h ud n hstores
  have hswap' : ¬((List.range' 0 n).any fun i =>
      td.loaded.stores ud i && (td.loaded.tRec i).rStat.swap) = true := by
    simp only [List.any_eq_true, not_exists, not_and, Bool.not_eq_true]
    intro j hj
    have hjn : j < n := by simpa using List.mem_range'_1.mp hj
    rw [stores_loaded h]
    cases hst : td.stores ud j with
    | false => rfl
    | true =>
        have hmem : (td.tRec j).InMemory :=
          h.inMemory ((h.cached_of_dirty (Bool.and_eq_true_iff.mp hst).1).resolve_right
            (by simp [hstores j hjn hst]))
        rw [loaded_of_inMemory hmem, Bool.true_and]
        exact hmem.2
  rw [perform_svcStore, if_neg hswap']
  dsimp only at hcomm
  rw [← hcomm]
  exact ⟨rfl, hset, fun _ _ => trivial⟩

theorem cancel_follows (ud : Usr) :
    Follows Settled RTbl.loaded (svcCancel ud) (svcCancel ud) fun _ => True := by
  refine Follows.getBind fun s => ?_
  rw [loaded_checkLock]
  refine (TblSim.throwIf _ _).bind fun _ _ => ?_
  exact Follows.modify (fun s hs => (cancel_commutes hs).1) (fun s hs => (cancel_commutes hs).2.1) trivial

/-- A table and its loaded table. -/
theorem tblSim_loaded : TblSim Settled RTbl.loaded safeLoad noLoad RRec.InMemory where
  slots _ := rfl
  flags hc hs hr := ⟨hc.trans hr.1, hs.trans hr.2⟩
  slot := slot_follows noLoad
  set i _ hr := Follows.modify (fun _ hs => settled_set hs hr i) (fun _ _ => loaded_set hr i) trivial
  off _ hg := Follows.modify (fun _ hs => settled_off hg hs) (fun _ _ => loaded_off hg) trivial
  extend := extend_follows
  shrink := shrink_follows
  store := store_follows
  cancel := cancel_follows
  rollback _ := Follows.modify (fun _ hs => (rollback_commutes hs).1)
    (fun _ hs => (rollback_commutes hs).2.1) trivial

theorem follows_refl {α : Type} (p : TblM α) :
    Follows (fun _ => True) id p p fun _ => True := by
  intro s r t _ hr
  exact ⟨hr, trivial, fun _ _ => trivial⟩

/-- Two loads that do the same make the same of an operation. -/
theorem tblSim_id {load load' : Loader}
    (h : ∀ s l, Follows (fun _ => True) id (load s l) (load' s l) fun _ => True) :
    TblSim (fun _ => True) id load load' fun _ => True where
  slots _ := rfl
  flags _ _ _ := trivial
  slot i pn := by
    have hcached : Follows (fun _ => True) id (cached load i pn) (cached load' i pn) fun _ => True := by
      refine Follows.getBind fun s => ?_
      rw [id]
      split
      · exact Follows.pure trivial
      · exact h i pn
    exact hcached.bind fun _ _ => follows_refl _
  set _ _ _ := follows_refl _
  off _ _ := follows_refl _
  extend := follows_refl _
  shrink _ := follows_refl _
  store _ _ := follows_refl _
  cancel _ := follows_refl _
  rollback _ := follows_refl _

theorem safeLoad_follows_svcLoad (s l : ℕ) :
    Follows (fun _ => True) id (safeLoad s l) (svcLoad s l) fun _ => True := by
  intro td r t _ hr
  rw [perform_safeLoad] at hr
  split_ifs at hr
  exact ⟨hr, trivial, fun _ _ => trivial⟩

theorem safeLoad_follows_keepLoad (s l : ℕ) :
    Follows (fun _ => True) id (safeLoad s l) (keepLoad s l) fun _ => True := by
  intro td r t _ hr
  rw [perform_safeLoad] at hr
  split_ifs at hr with hsafe
  cases hr
  refine ⟨?_, trivial, fun _ _ => trivial⟩
  have hkept : ((td.range s l).all fun j => (td.tRec j).keptIn ((td.svcLoad s l).tRec j)) = true := by
    unfold RTbl.loadSafe at hsafe
    simp only [Bool.and_eq_true] at hsafe
    have hclean := List.all_eq_true.mp hsafe.1.2
    exact List.all_eq_true.mpr fun j hj => Bool.or_eq_true_iff.mpr (.inl (hclean j hj))
  unfold keepLoad
  rw [id, perform_bind_of_ok perform_get]
  change perform (faultIf _ _) (td.svcLoad s l) = _
  rw [perform_faultIf]
  simp only [hkept]
  rfl

/-! ### Tables in memory -/

def AllIn (td : RTbl) : Prop := ∀ j < td.tRecNum, (td.tRec j).InMemory

theorem loaded_allIn (h : Settled td) : AllIn td.loaded := by
  intro j hj
  rw [loaded_tRecNum] at hj
  rw [loaded_of_lt hj]
  exact resolve_inMemory h j

/-- A record that is read again in a table that is in memory. -/
theorem AllIn.svcLoad (h : AllIn td) (hi : i < td.tRecNum) :
    AllIn (td.svcLoad i 1) ∧ (td.svcLoad i 1).tRecNum = td.tRecNum ∧
      ∀ j ≠ i, (td.svcLoad i 1).tRec j = td.tRec j := by
  have hmem := h i hi
  rw [svcLoad_one_of_inMemory hi hmem]
  split
  · refine ⟨?_, rfl, fun j hj => setRec_ne _ hj⟩
    intro j hj
    rcases eq_or_ne j i with rfl | hji
    · rw [setRec_self]
      exact ⟨rfl, hmem.2⟩
    · rw [setRec_ne _ hji]
      exact h j hj
  · exact ⟨h, rfl, fun _ _ => rfl⟩

/-- What a step of a cancel or a rollback does not change: the slots `p` is
false of. -/
def OnlySlots (p : ℕ → Prop) (td u : RTbl) : Prop :=
  AllIn u ∧ u.tRecNum = td.tRecNum ∧ ∀ j, ¬p j → u.tRec j = td.tRec j

theorem OnlySlots.foldl {f : RTbl → ℕ → RTbl} {p : RTbl → ℕ → Prop} (n : ℕ)
    (hf : ∀ u i, AllIn u → i < u.tRecNum → OnlySlots (fun j => j = i ∧ p u j) u (f u i))
    (hp : ∀ u v j, u.tRec j = v.tRec j → p v j → p u j) (h : AllIn td) (hn : n ≤ td.tRecNum) :
    OnlySlots (p td) td ((List.range n).foldl f td) := by
  induction n with
  | zero => exact ⟨h, rfl, fun _ _ => rfl⟩
  | succ n ih =>
      obtain ⟨hall, hnum, hsame⟩ := ih (Nat.le_of_succ_le hn)
      rw [List.range_succ, List.foldl_append, List.foldl_cons, List.foldl_nil]
      obtain ⟨hall', hnum', hsame'⟩ := hf _ n hall (by omega)
      refine ⟨hall', hnum'.trans hnum, ?_⟩
      intro j hj
      rw [hsame' j fun h => hj (hp td _ j (hsame j hj).symm h.2), hsame j hj]

theorem cancelSlot_only (h : AllIn td) (hi : i < td.tRecNum) :
    OnlySlots (fun j => j = i ∧ (td.tRec j).rAccess = some ud) td (td.cancelSlot ud i) := by
  unfold RTbl.cancelSlot
  dsimp only
  split
  · next hc =>
      obtain ⟨hall, hnum, hne⟩ := h.svcLoad hi
      refine ⟨hall, hnum, ?_⟩
      intro j hj
      exact hne j fun hji => hj ⟨hji, hji ▸ hc.1⟩
  · exact ⟨h, rfl, fun _ _ => rfl⟩

theorem discard_only (h : AllIn td) (hi : i < td.tRecNum) :
    OnlySlots (fun j => j = i) td (td.discard i) := by
  unfold RTbl.discard
  dsimp only
  split
  · exact h.svcLoad hi
  · exact ⟨h, rfl, fun _ _ => rfl⟩

theorem rollbackSlot_only (h : AllIn td) (hi : i < td.tRecNum) :
    OnlySlots (fun j => j = i ∧ (td.tRec j).rAccess = some ud) td (td.rollbackSlot ud i) := by
  unfold RTbl.rollbackSlot
  dsimp only
  split
  · next hc =>
      obtain ⟨hall, hnum, hne⟩ := discard_only h hi
      refine ⟨?_, hnum, ?_⟩
      · intro j hj
        rcases eq_or_ne j i with rfl | hji
        · rw [setRec_self]
          exact hall j hj
        · rw [setRec_ne _ hji]
          exact hall j hj
      · intro j hj
        have hji : j ≠ i := fun hji => hj ⟨hji, hji ▸ hc⟩
        rw [setRec_ne _ hji]
        exact hne j hji
  · exact ⟨h, rfl, fun _ _ => rfl⟩

/-- A cancel changes slots of its user only. -/
theorem cancel_only (h : AllIn td) :
    OnlySlots (fun j => (td.tRec j).rAccess = some ud) td (td.cancel ud) :=
  OnlySlots.foldl (p := fun u j => (u.tRec j).rAccess = some ud) td.tRecNum
    (fun _ _ hu hi => cancelSlot_only hu hi) (fun _ _ _ huv hv => huv ▸ hv) h (Nat.le_refl _)

/-- A rollback changes slots of its user only. -/
theorem rollback_only (h : AllIn td) :
    OnlySlots (fun j => (td.tRec j).rAccess = some ud) td (td.rollback ud) := by
  have honly := OnlySlots.foldl (p := fun u j => (u.tRec j).rAccess = some ud) td.tRecNum
    (fun _ _ hu hi => rollbackSlot_only hu hi) (fun _ _ _ huv hv => huv ▸ hv) h (Nat.le_refl _)
  unfold RTbl.rollback
  dsimp only
  split <;> exact honly

/-! ### Runs -/

/-- The operation on a table that has all records loaded and is not swapped out. -/
def eagerProg : TblOp → TblM (List RHead × Option RdbErr)
  | .swapOut => return ([], none)
  | op => tblProg noLoad op

def TblOp.isSwapOut : TblOp → Bool
  | .swapOut => true
  | _ => false

def eagerStep (s : RTbl × List TblReply) (op : TblOp) : Except TblFault (RTbl × List TblReply) :=
  (perform (eagerProg op) s.1).map fun x => (x.2, s.2 ++ [x.1])

/-- The loads of an operation are safe, it has the slots and columns it needs, and
what it writes to the file or copies is not swapped out. A table is swapped out
only if all of it is cached. -/
structure LoadsFit (td : RTbl) (op : TblOp) : Prop where
  safe : (perform (tblProg safeLoad op) td).isOk = true
  swap : op.isSwapOut = true → ∀ j < td.tRecNum, (td.tRec j).rStat.cache = true

instance (td : RTbl) (op : TblOp) : Decidable (LoadsFit td op) :=
  decidable_of_iff ((perform (tblProg safeLoad op) td).isOk = true ∧
      (op.isSwapOut = true → ∀ j < td.tRecNum, (td.tRec j).rStat.cache = true))
    ⟨fun h => ⟨h.1, h.2⟩, fun h => ⟨h.1, h.2⟩⟩

theorem perform_swapOut : perform swapOut td =
    if (List.range td.tRecNum).any fun i => (td.tRec i).rStat.swap then .error .swapped
    else .ok (.ok (), td.swapOut) := by
  unfold XjPing.swapOut
  rw [perform_bind_of_ok perform_get, perform_bind, perform_faultIf]
  split <;> rfl

theorem swapOut_settled (h : Settled td) : Settled td.swapOut := by
  intro j
  unfold RTbl.swapOut
  dsimp only
  split
  · exact ⟨by simp, by simp⟩
  · exact h j

theorem swapOut_loaded (h : Settled td) (hc : ∀ j < td.tRecNum, (td.tRec j).rStat.cache = true) :
    td.swapOut.loaded = td.loaded := by
  refine loaded_congr ?_ fun j hj => if_neg (Nat.not_lt.mpr hj)
  intro j hj
  have hmem := h.inMemory (hc j hj)
  rw [RTbl.resolve, RTbl.resolve]
  dsimp only
  rw [if_pos hj, hmem.resolve]
  cases hr : td.tRec j with
  | mk rStat rHead rAccess rWait =>
      rw [hr] at hmem
      obtain ⟨hcache, hswap⟩ := hmem
      cases rStat
      dsimp only at hcache hswap
      subst hcache hswap
      rfl

/-- An operation whose loads are safe does the same to a table, to its loaded
table, and where each load is watched. -/
theorem tblProg_eager (h : Settled td) {op : TblOp} (hop : LoadsFit td op) :
    ∃ r td', perform (tblProg svcLoad op) td = .ok (r, td') ∧ Settled td' ∧
      perform (eagerProg op) td.loaded = .ok (r, td'.loaded) ∧
        perform (tblProg keepLoad op) td = .ok (r, td') := by
  have hsafe := hop.safe
  cases hr : perform (tblProg safeLoad op) td with
  | error e =>
      rw [hr] at hsafe
      cases hsafe
  | ok x =>
      obtain ⟨r, td'⟩ := x
      by_cases hswap : op = .swapOut
      · subst hswap
        have hr' := hr
        rw [tblProg, perform_bind, perform_swapOut] at hr
        split_ifs at hr
        · cases hr
        · change Except.ok (Except.ok ([], none), td.swapOut) = _ at hr
          cases hr
          refine ⟨_, _, hr', swapOut_settled h, ?_, hr'⟩
          rw [swapOut_loaded h (hop.swap rfl)]
          rfl
      · have heager : eagerProg op = tblProg noLoad op := by
          cases op <;> first | rfl | exact absurd rfl hswap
        obtain ⟨he, hset, -⟩ := tblSim_loaded.tblProg op hswap td r td' h hr
        have hs := (tblSim_id safeLoad_follows_svcLoad).tblProg op hswap td r td' trivial hr
        have hk := (tblSim_id safeLoad_follows_keepLoad).tblProg op hswap td r td' trivial hr
        rw [heager]
        exact ⟨r, td', hs.1, hset, he, hk.1⟩

theorem tblOpen_settled (file : TblFile) (tRecSize : ℕ) (tScm : List RItem) :
    Settled (tblOpen file tRecSize tScm) :=
  fun _ => ⟨fun h => Bool.noConfusion h, fun _ _ => ⟨rfl, rfl, rfl⟩⟩

/-- A run whose loads are safe, on a table and on its loaded table. -/
theorem tblRun_eager {out : List TblReply} {ops : List TblOp} (h : Settled td)
    (hops : Along (tblStep svcLoad) (fun s op => LoadsFit s.1 op) (td, out) ops) :
    ∃ td' out', run (tblStep svcLoad) (td, out) ops = .ok (td', out') ∧ Settled td' ∧
      run eagerStep (td.loaded, out) ops = .ok (td'.loaded, out') := by
  induction ops generalizing td out with
  | nil => exact ⟨td, out, rfl, h, rfl⟩
  | cons op ops ih =>
      obtain ⟨r, u, hu, hset, he, -⟩ := tblProg_eager h hops.1
      have hstep : tblStep svcLoad (td, out) op = .ok (u, out ++ [r]) := by
        rw [tblStep, hu]
        rfl
      have hestep : eagerStep (td.loaded, out) op = .ok (u.loaded, out ++ [r]) := by
        rw [eagerStep, he]
        rfl
      obtain ⟨td', out', hrun, hset', herun⟩ := ih hset (hops.2 _ hstep)
      refine ⟨td', out', ?_, hset', ?_⟩
      · rw [run, hstep]
        exact hrun
      · rw [run, hestep]
        exact herun

/-- The records a cancel or a rollback takes back are those of its user. -/
theorem eager_discards (h : AllIn td) {op : TblOp} {r : TblReply} {u : RTbl}
    (hop : op = .cancel ud ∨ op = .rollback ud) (hr : perform (eagerProg op) td = .ok (r, u))
    (hj : (td.tRec j).rAccess ≠ some ud) : u.tRec j = td.tRec j := by
  rcases hop with rfl | rfl
  · have hprog : perform (svcCancel ud) td =
        if td.checkLock ud true then .ok (.error .tblBusy, td) else .ok (.ok (), td.cancel ud) := by
      unfold svcCancel
      rw [perform_bind_of_ok perform_get, perform_bind]
      unfold throwIf
      cases td.checkLock ud true <;> rfl
    rw [eagerProg, tblProg, perform_bind, hprog] at hr
    · split_ifs at hr
      · cases hr
        rfl
      · cases hr
        exact (cancel_only h).2.2 j hj
    · intro hswap
      cases hswap
  · cases hr
    exact (rollback_only h).2.2 j hj

/-- What a run with demand loading answers, and what it leaves in memory, is what
it would be if all records had been loaded when the table was opened. No load
changes a dirty record, and a cancel or a rollback takes back records of its
user only. It is said of the last operation of a run. -/
def LoadedOnce (file : TblFile) (tRecSize : ℕ) (tScm : List RItem) (ops : List TblOp) (op : TblOp) :
    Prop :=
  ∃ td out r td', run (tblStep svcLoad) (tblOpen file tRecSize tScm, []) ops = .ok (td, out) ∧
    perform (tblProg svcLoad op) td = .ok (r, td') ∧
    run eagerStep ((tblOpen file tRecSize tScm).loaded, []) ops = .ok (td.loaded, out) ∧
    perform (eagerProg op) td.loaded = .ok (r, td'.loaded) ∧
    perform (tblProg keepLoad op) td = .ok (r, td') ∧
    ∀ ud, op = .cancel ud ∨ op = .rollback ud → ∀ j, (td.loaded.tRec j).rAccess ≠ some ud →
      td'.loaded.tRec j = td.loaded.tRec j

/-- A file of `n` records that are used. -/
def usedFile (n : ℕ) : TblFile where
  recs j := if j < n then { rRel := j, rAbs := j, rStat := { used := true } } else {}
  recNum := n
  recUsed := n

/-- How many records an answer has. -/
def foundCount : TblReply → ℕ
  | .ok x => x.1.length
  | .error _ => 0

/-- How many records the last answer of a run has. -/
def lastCount (x : Except TblFault (TblReply × RTbl)) : Option ℕ :=
  x.toOption.map fun y => foundCount y.1

end PaxosSolutions.XjPing
