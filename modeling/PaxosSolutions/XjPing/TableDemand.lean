import PaxosSolutions.XjPing.TableSim
import PaxosSolutions.XjPing.TableStore

/-!
# Demand loading

The steps of an operation do the same on a table and on its loaded table, as
long as its loads are safe. What a run answers is then what it would answer if
all records had been loaded when the table was opened.
-/
namespace PaxosSolutions.XjPing
open Lib

variable {td : RTbl} {i j s l : ℕ} {ud : Usr}

/-! ### Reading and writing a slot -/

theorem perform_slot_cached {load : Loader} (h : (td.tRec i).rStat.cache = true) (pn : ℕ) :
    perform (slot load i pn) td = .ok (.ok (td.tRec i), td) := by
  have hcached : perform (cached load i pn) td = .ok (.ok (), td) := by
    unfold cached
    rw [perform_bind_of_ok perform_get, if_pos h]
    rfl
  unfold slot
  rw [perform_bind_of_ok hcached]
  rfl

theorem perform_safeLoad : perform (safeLoad s l) td =
    if td.loadSafe s l then .ok (.ok (), td.svcLoad s l) else .error .lost := by
  unfold safeLoad faultIf
  rw [perform_bind_of_ok perform_get, perform_bind]
  cases td.loadSafe s l <;> rfl

theorem perform_slot_safe (h : (td.tRec i).rStat.cache = false) (pn : ℕ) :
    perform (slot safeLoad i pn) td =
      if td.loadSafe i pn then .ok (.ok ((td.svcLoad i pn).tRec i), td.svcLoad i pn)
      else .error .lost := by
  have hcached : perform (cached safeLoad i pn) td = perform (safeLoad i pn) td := by
    unfold cached
    rw [perform_bind_of_ok perform_get, if_neg (by simp [h])]
  unfold slot
  rw [perform_bind, hcached, perform_safeLoad]
  cases td.loadSafe i pn <;> rfl

/-- The slot of a loaded table is read without a load. -/
theorem slot_follows (load : Loader) (i pn : ℕ) :
    Follows Settled RTbl.loaded (slot safeLoad i pn) (slot load i pn) RRec.InMemory := by
  intro td r t hset hr
  by_cases hc : (td.tRec i).rStat.cache = true
  · have hmem := hset.inMemory hc
    rw [perform_slot_cached hc] at hr
    cases hr
    have hload := loaded_of_inMemory hmem
    rw [perform_slot_cached (by rw [hload]; exact hc), hload]
    refine ⟨rfl, hset, ?_⟩
    intro a ha
    cases ha
    exact hmem
  · rw [perform_slot_safe (Bool.eq_false_iff.mpr hc)] at hr
    by_cases hsafe : td.loadSafe i pn = true
    · rw [if_pos hsafe] at hr
      cases hr
      obtain ⟨hset', hloaded, hmem⟩ := svcLoad_safe hset hsafe
      have hload := loaded_of_inMemory hmem
      rw [hloaded] at hload ⊢
      rw [perform_slot_cached (by rw [hload]; exact hmem.1), hload]
      refine ⟨rfl, hset', ?_⟩
      intro a ha
      cases ha
      exact hmem
    · rw [if_neg hsafe] at hr
      cases hr

theorem settled_set (h : Settled td) {r : RRec} (hr : r.InMemory) (i : ℕ) :
    Settled (td.setRec i r) := by
  intro j
  rcases eq_or_ne j i with rfl | hj
  · rw [setRec_self]
    exact ⟨fun _ => hr.2, fun hc => absurd hr.1 (by simp [hc])⟩
  · rw [setRec_ne r hj]
    exact h j

/-- A slot may be written before or after the rest is loaded, if what is written
resolves to the record that is written then. -/
theorem loaded_setRec {r r' : RRec} (h : i < td.tRecNum → r.resolve (td.file.recs i) = r')
    (h' : td.tRecNum ≤ i → r = r') : (td.setRec i r).loaded = td.loaded.setRec i r' := by
  have htRec : (td.setRec i r).loaded.tRec = (td.loaded.setRec i r').tRec := by
    funext j
    rw [loaded_tRec, setRec_tRecNum, RTbl.resolve, setRec_file]
    rcases eq_or_ne j i with rfl | hj
    · rw [setRec_self, setRec_self]
      by_cases hlt : j < td.tRecNum
      · rw [if_pos hlt, h hlt]
      · rw [if_neg hlt, h' (Nat.not_lt.mp hlt)]
    · rw [setRec_ne r hj, setRec_ne r' hj]
      rfl
  exact congrArg (fun f => { td with tRec := f }) htRec

theorem loaded_set {r : RRec} (hr : r.InMemory) (i : ℕ) :
    (td.setRec i r).loaded = td.loaded.setRec i r :=
  loaded_setRec (fun _ => hr.resolve _) fun _ => rfl

theorem loaded_off {g : RTbl → RTbl} (hg : OffSlots g) : (g td).loaded = g td.loaded := by
  have htRec : (g td).loaded.tRec = td.loaded.tRec := by
    funext j
    rw [loaded_tRec, loaded_tRec, RTbl.resolve, RTbl.resolve, hg.tRec, hg.tRecNum, hg.file]
  calc (g td).loaded = { g td with tRec := td.loaded.tRec } :=
        congrArg (fun f => { g td with tRec := f }) htRec
    _ = g td.loaded := (hg.apart td td.loaded.tRec).symm

/-! ### The reload of one slot -/

theorem svcLoad_one_of_inMemory (hi : i < td.tRecNum) (h : (td.tRec i).InMemory) :
    td.svcLoad i 1 =
      if (td.tRec i).rStat.dirty then
        td.setRec i ((td.tRec i).load (td.file.recs i))
      else td := by
  have hrange : td.range i 1 = [i] := by
    rw [RTbl.range]
    have : min (i + 1) td.tRecNum - i = 1 := by omega
    rw [this]
    rfl
  have hswap : td.loadSwap i 1 = td := by
    unfold RTbl.loadSwap
    rw [hrange]
    simp [h.2]
  unfold RTbl.svcLoad
  rw [hswap]
  unfold RTbl.fresh RTbl.loadRange
  simp only [hrange]
  cases hd : (td.tRec i).rStat.dirty
  · simp [h.1, hd]
  · simp only [List.all_cons, hd, Bool.not_true, Bool.and_false, Bool.false_and,
      Bool.false_eq_true, if_false, if_true, List.mem_singleton]
    refine congrArg (fun f => { td with tRec := f }) (funext fun j => ?_)
    rcases eq_or_ne j i with rfl | hj
    · rw [if_pos rfl, Function.update_self]
    · rw [if_neg hj, Function.update_of_ne hj]

theorem loadSwap_inMemory (h : Settled td) (hi : i < td.tRecNum)
    (hr : (td.tRec i).rStat.cache = true ∨ (td.tRec i).rStat.swap = true) :
    ((td.loadSwap i 1).tRec i).InMemory := by
  unfold RTbl.loadSwap
  split
  · unfold RTbl.swapIn
    dsimp only
    rw [if_pos hi]
    exact swapIn_inMemory (h i).1 hr
  · next hs =>
      have hmem : i ∈ td.range i 1 := mem_range.mpr ⟨Nat.le_refl i, by omega⟩
      have hswap : ¬(td.tRec i).rStat.swap = true := fun hsw => hs (List.any_eq_true.mpr ⟨i, hmem, hsw⟩)
      exact h.inMemory (hr.resolve_right hswap)

/-- A swap-in is over before the range is looked at. -/
theorem svcLoad_loadSwap (h : Settled td) (hi : i < td.tRecNum)
    (hr : (td.tRec i).rStat.cache = true ∨ (td.tRec i).rStat.swap = true) :
    td.svcLoad i 1 = (td.loadSwap i 1).svcLoad i 1 := by
  have hmem := loadSwap_inMemory h hi hr
  have hrange : (td.loadSwap i 1).range i 1 = [i] := by
    rw [loadSwap_range, RTbl.range]
    have : min (i + 1) td.tRecNum - i = 1 := by omega
    rw [this]
    rfl
  have hswap : (td.loadSwap i 1).loadSwap i 1 = td.loadSwap i 1 := by
    rw [RTbl.loadSwap, hrange]
    simp [hmem.2]
  unfold RTbl.svcLoad
  rw [hswap]

/-- A record that is in memory or swapped out may be read again before or after
the rest is loaded. -/
theorem svcLoad_one (h : Settled td) (hi : i < td.tRecNum)
    (hr : (td.tRec i).rStat.cache = true ∨ (td.tRec i).rStat.swap = true) :
    Settled (td.svcLoad i 1) ∧ (td.svcLoad i 1).loaded = td.loaded.svcLoad i 1 ∧
      ((td.svcLoad i 1).tRec i).InMemory ∧ (td.svcLoad i 1).tRecNum = td.tRecNum := by
  have hset := loadSwap_settled (s := i) (l := 1) h
  have hmem := loadSwap_inMemory h hi hr
  have hi' : i < (td.loadSwap i 1).tRecNum := by rwa [loadSwap_tRecNum]
  have hnum : (td.loadSwap i 1).tRecNum = td.tRecNum := loadSwap_tRecNum
  have hload := loadSwap_loaded (s := i) (l := 1) h
  rw [svcLoad_loadSwap h hi hr, ← hload]
  generalize td.loadSwap i 1 = u at hset hmem hi' hnum
  have hself := loaded_of_inMemory hmem
  have hmem' : (u.loaded.tRec i).InMemory := by rwa [hself]
  have hi'' : i < u.loaded.tRecNum := hi'
  rw [svcLoad_one_of_inMemory hi' hmem, svcLoad_one_of_inMemory hi'' hmem', hself, loaded_file]
  by_cases hd : (u.tRec i).rStat.dirty = true
  · rw [if_pos hd, if_pos hd]
    have hread : ((u.tRec i).load (u.file.recs i)).InMemory := ⟨rfl, hmem.2⟩
    refine ⟨settled_set hset hread i, loaded_set hread i, ?_, hnum⟩
    rw [setRec_self]
    exact hread
  · rw [if_neg hd, if_neg hd]
    exact ⟨hset, rfl, hmem, hnum⟩

/-! ### Cancel and rollback -/

/-- What a slot keeps when its record comes in memory. -/
theorem RRec.resolve_spec (r : RRec) (rp : RHead) :
    (r.resolve rp).rAccess = r.rAccess ∧ (r.resolve rp).rWait = r.rWait ∧
      (r.resolve rp).rStat.exclusive = r.rStat.exclusive ∧
        (r.resolve rp).rStat.share = r.rStat.share := by
  unfold RRec.resolve RRec.swapIn
  split_ifs <;> exact ⟨rfl, rfl, rfl, rfl⟩

/-- A record that is not in the file only keeps its flags. -/
theorem RRec.resolve_flags {r : RRec} (h : r.rStat.cache = true ∨ r.rStat.swap = true) (rp : RHead) :
    (r.resolve rp).rStat.used = r.rStat.used ∧ (r.resolve rp).rStat.busy = r.rStat.busy ∧
      (r.resolve rp).rStat.insert = r.rStat.insert ∧ (r.resolve rp).rStat.update = r.rStat.update := by
  unfold RRec.resolve RRec.swapIn
  split_ifs with hc hs
  · exact ⟨rfl, rfl, rfl, rfl⟩
  · exact ⟨rfl, rfl, rfl, rfl⟩
  · exact absurd h (by simp [hc, hs])

/-- A record that is only in the file has no change. -/
theorem Settled.resolve_flags (h : Settled td) (j : ℕ) :
    (td.resolve j).rStat.busy = (td.tRec j).rStat.busy ∧
      (td.resolve j).rStat.insert = (td.tRec j).rStat.insert ∧
        (td.resolve j).rStat.update = (td.tRec j).rStat.update := by
  by_cases hr : (td.tRec j).rStat.cache = true ∨ (td.tRec j).rStat.swap = true
  · exact (RRec.resolve_flags hr _).2
  · simp only [not_or, Bool.not_eq_true] at hr
    obtain ⟨hb, hi, hu⟩ := (h j).2 hr.1 hr.2
    rw [hb, hi, hu, RTbl.resolve, RRec.resolve, if_neg (by simp [hr.1]), if_neg (by simp [hr.2])]
    exact ⟨rfl, rfl, rfl⟩

theorem Settled.cached_of_busy (h : Settled td) (hj : (td.tRec j).rStat.busy = true) :
    (td.tRec j).rStat.cache = true ∨ (td.tRec j).rStat.swap = true := by
  by_contra hr
  simp only [not_or, Bool.not_eq_true] at hr
  simp [((h j).2 hr.1 hr.2).1] at hj

theorem Settled.cached_of_dirty (h : Settled td) (hj : (td.tRec j).rStat.dirty = true) :
    (td.tRec j).rStat.cache = true ∨ (td.tRec j).rStat.swap = true := by
  by_contra hr
  simp only [not_or, Bool.not_eq_true] at hr
  obtain ⟨-, hi, hu⟩ := (h j).2 hr.1 hr.2
  simp [RStat.dirty, hi, hu] at hj

/-- What a change of a table does to it and to its loaded table. -/
def Commutes (f : RTbl → RTbl) (td : RTbl) : Prop :=
  Settled (f td) ∧ (f td).loaded = f td.loaded ∧ (f td).tRecNum = td.tRecNum

theorem cancelSlot_commutes (h : Settled td) (hi : i < td.tRecNum) :
    Commutes (fun td => td.cancelSlot ud i) td := by
  have hload := loaded_of_lt hi
  have haccess := (RRec.resolve_spec (td.tRec i) (td.file.recs i)).1
  have hbusy := (h.resolve_flags i).1
  unfold Commutes RTbl.cancelSlot
  dsimp only
  by_cases hc : (td.tRec i).rAccess = some ud ∧ (td.tRec i).rStat.busy = true
  · have hr := h.cached_of_busy hc.2
    have hused := (RRec.resolve_flags hr (td.file.recs i)).1
    obtain ⟨hset, hcomm, hmem, hnum⟩ := svcLoad_one h hi hr
    have hself := loaded_of_inMemory hmem
    rw [hload, RTbl.resolve, haccess, ← RTbl.resolve, hbusy, if_pos hc, if_pos hc, ← hcomm, hself,
      RTbl.resolve, hused]
    exact ⟨hset, rfl, hnum⟩
  · rw [hload, RTbl.resolve, haccess, ← RTbl.resolve, hbusy, if_neg hc, if_neg hc]
    exact ⟨h, rfl, rfl⟩

/-- A loop over all slots commutes if each of its steps does. -/
theorem foldl_commutes {f : RTbl → ℕ → RTbl} (n : ℕ)
    (hf : ∀ td i, Settled td → i < td.tRecNum → Commutes (fun td => f td i) td)
    (h : Settled td) (hn : n ≤ td.tRecNum) :
    Commutes (fun td => (List.range n).foldl f td) td := by
  induction n with
  | zero => exact ⟨h, rfl, rfl⟩
  | succ n ih =>
      obtain ⟨hset, hcomm, hnum⟩ := ih (Nat.le_of_succ_le hn)
      simp only [Commutes, List.range_succ, List.foldl_append, List.foldl_cons, List.foldl_nil]
        at hset hcomm hnum ⊢
      obtain ⟨hset', hcomm', hnum'⟩ := hf _ n hset (by omega)
      exact ⟨hset', by rw [hcomm', hcomm], by rw [hnum', hnum]⟩

theorem cancel_commutes (h : Settled td) : Commutes (fun td => td.cancel ud) td := by
  obtain ⟨hset, hcomm, hnum⟩ := foldl_commutes td.tRecNum
    (fun td i hs hi => cancelSlot_commutes hs hi) h (Nat.le_refl _)
  exact ⟨hset, congrArg (fun t : RTbl => { t with uAdded := Function.update t.uAdded ud 0 }) hcomm, hnum⟩

theorem discard_commutes (h : Settled td) (hi : i < td.tRecNum) :
    Commutes (fun td => td.discard i) td := by
  have hload := loaded_of_lt hi
  obtain ⟨-, hinsert, hupdate⟩ := h.resolve_flags i
  have hdirty : (td.resolve i).rStat.dirty = (td.tRec i).rStat.dirty := by
    rw [RStat.dirty, RStat.dirty, hinsert, hupdate]
  unfold Commutes RTbl.discard
  dsimp only
  by_cases hd : (td.tRec i).rStat.dirty = true
  · have hr := h.cached_of_dirty hd
    have hused : (td.resolve i).rStat.used = (td.tRec i).rStat.used := (RRec.resolve_flags hr _).1
    obtain ⟨hset, hcomm, -, hnum⟩ := svcLoad_one h hi hr
    rw [hload, hdirty, if_pos hd, if_pos hd, ← hcomm, hinsert, hused]
    exact ⟨hset, rfl, hnum⟩
  · rw [hload, hdirty, if_neg hd, if_neg hd]
    exact ⟨h, rfl, rfl⟩

theorem resolve_released (r : RRec) (rp : RHead) (w : Bool) :
    (r.released w).resolve rp = (r.resolve rp).released w := by
  unfold RRec.resolve
  change (if r.rStat.cache = true then r.released w else if r.rStat.swap = true then _ else _) = _
  by_cases hc : r.rStat.cache = true
  · rw [if_pos hc, if_pos hc]
  · rw [if_neg hc, if_neg hc]
    by_cases hs : r.rStat.swap = true
    · rw [if_pos hs, if_pos hs, RRec.swapIn, RRec.swapIn, if_pos hs, if_pos (by exact hs)]
      rfl
    · rw [if_neg hs, if_neg hs]
      rfl

theorem released_commutes (h : Settled td) (hi : i < td.tRecNum) (w : Bool) :
    Commutes (fun td => td.setRec i ((td.tRec i).released w)) td := by
  refine ⟨?_, ?_, rfl⟩
  · intro j
    dsimp only
    rcases eq_or_ne j i with rfl | hj
    · rw [setRec_self]
      exact h j
    · rw [setRec_ne _ hj]
      exact h j
  · dsimp only
    rw [loaded_of_lt hi]
    refine loaded_setRec (fun _ => resolve_released _ _ _) fun hge => ?_
    omega

theorem rollbackSlot_commutes (h : Settled td) (hi : i < td.tRecNum) :
    Commutes (fun td => td.rollbackSlot ud i) td := by
  have hload := loaded_of_lt hi
  obtain ⟨haccess, -, hexcl, hshare⟩ := RRec.resolve_spec (td.tRec i) (td.file.recs i)
  have hlocked : (td.resolve i).rStat.locked = (td.tRec i).rStat.locked := by
    rw [RStat.locked, RStat.locked, RTbl.resolve, hexcl, hshare]
  rw [← RTbl.resolve] at haccess
  unfold Commutes RTbl.rollbackSlot
  dsimp only
  by_cases hc : (td.tRec i).rAccess = some ud
  · rw [hload, haccess, if_pos hc, if_pos hc, hlocked]
    obtain ⟨hset, hcomm, hnum⟩ := discard_commutes h hi
    dsimp only at hset hcomm hnum
    obtain ⟨hset', hcomm', hnum'⟩ := released_commutes hset (by rwa [hnum]) (td.tRec i).rStat.locked
    dsimp only at hset' hcomm' hnum'
    rw [← hcomm]
    exact ⟨hset', hcomm', hnum'.trans hnum⟩
  · rw [hload, haccess, if_neg hc, if_neg hc]
    exact ⟨h, rfl, rfl⟩

theorem rollback_commutes (h : Settled td) : Commutes (fun td => td.rollback ud) td := by
  obtain ⟨hset, hcomm, hnum⟩ := foldl_commutes td.tRecNum
    (fun td i hs hi => rollbackSlot_commutes hs hi) h (Nat.le_refl _)
  dsimp only at hset hcomm hnum
  unfold Commutes RTbl.rollback
  dsimp only
  rw [loaded_tRecNum, ← hcomm]
  generalize (List.range td.tRecNum).foldl (fun td i => td.rollbackSlot ud i) td = u at hset hnum
  have hupdate : u.loaded.tUpdate = u.tUpdate := rfl
  rw [hupdate]
  cases u.tUpdate
  · exact ⟨hset, rfl, hnum⟩
  · exact ⟨hset, rfl, hnum⟩

/-! ### Store, extension and compression -/

theorem perform_faultIf (b : Bool) (f : TblFault) :
    perform (faultIf b f) td = if b then .error f else .ok (.ok (), td) := by
  cases b <;> rfl

/-- The slots a store of the first `n` slots writes. -/
def RTbl.storeAll (td : RTbl) (ud : Option Usr) (n : ℕ) : RTbl :=
  (td.storeOf fun j => j < n ∧ td.stores ud j = true).storeAdded ud

theorem perform_svcStore (n : ℕ) (ud : Option Usr) : perform (svcStore 0 n ud) td =
    if (List.range' 0 n).any fun i => td.stores ud i && (td.tRec i).rStat.swap then .error .swapped
    else .ok (.ok (), td.storeAll ud n) := by
  unfold svcStore
  rw [perform_bind_of_ok perform_get, perform_bind, perform_faultIf]
  split
  · rfl
  · change perform (modify _) td = _
    rw [perform_modify, storeLoop_all]
    rfl

theorem storeAdded_settled {ud : Option Usr} (h : Settled td) : Settled (td.storeAdded ud) := by
  cases ud <;> exact h

theorem storeAdded_loaded (ud : Option Usr) :
    (td.storeAdded ud).loaded = td.loaded.storeAdded ud := by
  cases ud <;> rfl

theorem stores_loaded (h : Settled td) (ud : Option Usr) (j : ℕ) :
    td.loaded.stores ud j = td.stores ud j := by
  unfold RTbl.stores RStat.dirty
  rw [loaded_tRec]
  split
  · obtain ⟨-, hi, hu⟩ := h.resolve_flags j
    have ha : (td.resolve j).rAccess = (td.tRec j).rAccess := (RRec.resolve_spec _ _).1
    rw [hi, hu, ha]
  · rfl

theorem storeAll_commutes (h : Settled td) (ud : Option Usr) (n : ℕ)
    (hswap : ∀ j < n, td.stores ud j = true → (td.tRec j).rStat.swap = false) :
    Commutes (fun td => td.storeAll ud n) td := by
  have hmem : ∀ j < n, td.stores ud j = true → (td.tRec j).InMemory := by
    intro j hj hst
    have hr := h.cached_of_dirty (Bool.and_eq_true_iff.mp hst).1
    exact h.inMemory (hr.resolve_right (by simp [hswap j hj hst]))
  have hnum : (td.storeAll ud n).tRecNum = td.tRecNum := by cases ud <;> rfl
  refine ⟨storeAdded_settled ?_, ?_, hnum⟩
  · intro j
    unfold RTbl.storeOf
    dsimp only
    split
    · next hp =>
        obtain ⟨hc, hs⟩ := hmem j hp.1 hp.2
        exact ⟨fun _ => hs, fun hf => by simp [RRec.stored, hc] at hf⟩
    · exact h j
  · dsimp only
    rw [RTbl.storeAll, storeAdded_loaded, RTbl.storeAll]
    congr 1
    have hp : ∀ j, (j < n ∧ td.loaded.stores ud j = true) ↔ j < n ∧ td.stores ud j = true := by
      intro j
      rw [stores_loaded h]
    rw [storeOf_congr hp]
    have htRec : (td.storeOf fun j => j < n ∧ td.stores ud j = true).loaded.tRec =
        (td.loaded.storeOf fun j => j < n ∧ td.stores ud j = true).tRec := by
      funext j
      rw [loaded_tRec, RTbl.resolve]
      unfold RTbl.storeOf
      dsimp only
      by_cases hj : j < n ∧ td.stores ud j = true
      · have hin := hmem j hj.1 hj.2
        have hin' : (td.tRec j).stored.InMemory := hin
        rw [if_pos hj, if_pos hj, if_pos hj, hin'.resolve, loaded_of_inMemory hin, ite_self]
      · rw [if_neg hj, if_neg hj, if_neg hj]
        rfl
    have hrecs : (td.storeOf fun j => j < n ∧ td.stores ud j = true).file.recs =
        (td.loaded.storeOf fun j => j < n ∧ td.stores ud j = true).file.recs := by
      funext j
      unfold RTbl.storeOf
      dsimp only
      by_cases hj : j < n ∧ td.stores ud j = true
      · rw [if_pos hj, if_pos hj, loaded_of_inMemory (hmem j hj.1 hj.2)]
      · rw [if_neg hj, if_neg hj]
        rfl
    calc (td.storeOf fun j => j < n ∧ td.stores ud j = true).loaded
        = { td with
            tRec := (td.storeOf fun j => j < n ∧ td.stores ud j = true).loaded.tRec
            file := { td.file with
              recs := (td.storeOf fun j => j < n ∧ td.stores ud j = true).file.recs } } := rfl
      _ = td.loaded.storeOf fun j => j < n ∧ td.stores ud j = true := by
          rw [htRec, hrecs]
          rfl

/-- The table with `store` of its slots and new ones up to `new`. -/
def RTbl.switched (td : RTbl) (store new : ℕ) : RTbl :=
  RTbl.headUpdate { td with
    tRec := fun i =>
      if i < store then td.tRec i
      else if i < new then { rHead := { data := List.replicate (td.tRecSize - R_HEAD_SIZE) 0 } }
      else {}
    tRecNum := new }

theorem perform_svcSwitch (store new : ℕ) : perform (svcSwitch store new) td =
    if (List.range store).any fun i => (td.tRec i).rStat.swap then .error .swapped
    else .ok (.ok (), td.switched store new) := by
  unfold svcSwitch
  rw [perform_bind_of_ok perform_get, perform_bind, perform_faultIf]
  split <;> rfl

theorem perform_shrink (n : ℕ) : perform (shrink n) td =
    if n < td.tRecNum then
      if (List.range n).any fun i => (td.tRec i).rStat.swap then .error .swapped
      else .ok (.ok (), td.switched n n)
    else .ok (.ok (), td) := by
  unfold shrink
  rw [perform_bind_of_ok perform_get]
  split
  · exact perform_svcSwitch n n
  · rfl

theorem switched_commutes (h : Settled td) {n : ℕ} (hn : n < td.tRecNum) :
    Settled (td.switched n n) ∧ (td.switched n n).loaded = td.loaded.switched n n := by
  constructor
  · intro j
    unfold RTbl.switched RTbl.headUpdate
    dsimp only
    split_ifs
    · exact h j
    · exact ⟨by simp, fun _ _ => ⟨rfl, rfl, rfl⟩⟩
  · have htRec : (td.switched n n).loaded.tRec = (td.loaded.switched n n).tRec := by
      funext j
      rw [loaded_tRec, RTbl.resolve]
      unfold RTbl.switched RTbl.headUpdate
      dsimp only
      by_cases hj : j < n
      · rw [if_pos hj, if_pos hj, if_pos hj, loaded_of_lt (Nat.lt_trans hj hn)]
        rfl
      · simp only [if_neg hj]
    exact congrArg (fun f => { td.switched n n with tRec := f }) htRec

/-- The table after an extension. -/
def RTbl.extended (td : RTbl) : RTbl :=
  (td.switched td.tRecNum (td.tRecNum * 2)).cacheFrom td.tRecNum

theorem perform_extend : perform extend td =
    if (List.range td.tRecNum).any fun i => (td.tRec i).rStat.swap then .error .swapped
    else if td.tRecNum = 0 then .error .noSlot
    else .ok (.ok (td.tRecNum, td.extended.tRec td.tRecNum), td.extended) := by
  unfold extend
  rw [perform_bind_of_ok perform_get, perform_bind, perform_svcSwitch]
  split
  · rfl
  · change perform (modify _ >>= _) _ = _
    rw [perform_bind_of_ok (perform_modify _), perform_bind, perform_faultIf]
    by_cases hn : td.tRecNum = 0
    · rw [if_pos hn, if_pos (by simp [hn])]
      rfl
    · rw [if_neg hn, if_neg (by simp [hn])]
      rfl

theorem extended_tRec (j : ℕ) : td.extended.tRec j =
    if j < td.tRecNum then td.tRec j
    else if j < td.tRecNum * 2 then
      { rStat := { cache := true }
        rHead := { data := List.replicate (td.tRecSize - R_HEAD_SIZE) 0 } }
    else {} := by
  unfold RTbl.extended RTbl.cacheFrom RTbl.switched RTbl.headUpdate
  dsimp only
  by_cases hj : j < td.tRecNum
  · rw [if_neg (by omega), if_pos hj, if_pos hj]
  · by_cases hj' : j < td.tRecNum * 2
    · simp [hj, hj', Nat.not_lt.mp hj]
    · simp [hj, hj']

theorem extended_commutes (h : Settled td) :
    Settled td.extended ∧ td.extended.loaded = td.loaded.extended := by
  constructor
  · intro j
    rw [extended_tRec]
    split_ifs
    · exact h j
    · exact ⟨fun _ => rfl, by simp⟩
    · exact ⟨by simp, fun _ _ => ⟨rfl, rfl, rfl⟩⟩
  · have htRec : td.extended.loaded.tRec = td.loaded.extended.tRec := by
      funext j
      have hnum : td.extended.tRecNum = td.tRecNum * 2 := rfl
      rw [loaded_tRec, RTbl.resolve, extended_tRec, extended_tRec, hnum, loaded_tRecNum]
      by_cases hj : j < td.tRecNum
      · rw [if_pos (by omega), if_pos hj, if_pos hj, loaded_of_lt hj]
        rfl
      · rw [if_neg hj, if_neg hj]
        by_cases hj' : j < td.tRecNum * 2
        · simp only [if_pos hj']
          rfl
        · simp only [if_neg hj']
    exact congrArg (fun f => { td.extended with tRec := f }) htRec

end PaxosSolutions.XjPing
