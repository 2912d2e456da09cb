import PaxosSolutions.XjPing.Sort
import PaxosSolutions.XjPing.TableAccounts
import PaxosSolutions.XjPing.TableScan
import Mathlib.Data.List.Pairwise

/-!
# Inserts that look for equal records

An insert may name columns in which a new record must differ from each record of the
table. All slots are read for it, and the table is in memory when the records are put in
it. They are not compared with each other.
-/
namespace PaxosSolutions.XjPing
open Lib

/-- The columns of a check -/
def columns (scm : List RItem) (items : List String) : List RItem :=
  items.filterMap fun name => scm.find? fun ip => ip.iName = name

/-- Two records are equal in all columns of a check. -/
def sameOn (scm : List RItem) (items : List String) (a b : List UInt8) : Bool :=
  (columns scm items).all fun ip => ip.bytes a = ip.bytes b

/-- A check names columns only. -/
def Known (scm : List RItem) (items : List String) : Prop :=
  ∀ name ∈ items, ∃ ip ∈ scm, ip.iName = name

variable {td u w : RTbl} {i j k s pn : ℕ} {ud : Usr} {mode : RLock} {items : List String}
  {recs : List (List UInt8)} {scm : List RItem}

theorem sameOn_comm (a b : List UInt8) : sameOn scm items a b = sameOn scm items b a := by
  unfold sameOn
  exact List.all_congr rfl fun ip => decide_eq_decide.mpr eq_comm

/-! ### The columns -/

theorem find_isSome {name : String} (h : ∃ ip ∈ scm, ip.iName = name) :
    ∃ ip, scm.find? (fun ip => ip.iName = name) = some ip := by
  obtain ⟨ip, hip, hname⟩ := h
  refine Option.isSome_iff_exists.mp ?_
  rw [List.find?_isSome]
  exact ⟨ip, hip, by simpa using hname⟩

theorem perform_findItems (h : Known scm items) :
    perform (findItems scm items) td = .ok (.ok (columns scm items), td) := by
  induction items with
  | nil => rfl
  | cons name items ih =>
      obtain ⟨ip, hip⟩ := find_isSome (h name List.mem_cons_self)
      have hrest := ih fun x hx => h x (List.mem_cons_of_mem _ hx)
      have hcolumns : columns scm (name :: items) = ip :: columns scm items :=
        List.filterMap_cons_some hip
      unfold findItems at hrest ⊢
      rw [List.mapM_cons, hip, hcolumns]
      exact perform_bind_of_ok hrest

/-- What becomes of a check with a name that no column has. -/
theorem perform_findItems_unknown (h : ¬Known scm items) :
    perform (findItems scm items) td =
      if scm.isEmpty then .ok (.error .noItem, td) else .error .noItem := by
  induction items with
  | nil => exact absurd (fun name hname => absurd hname List.not_mem_nil) h
  | cons name items ih =>
      unfold findItems at ih ⊢
      rw [List.mapM_cons]
      cases hfind : scm.find? fun ip => ip.iName = name with
      | none =>
          rw [perform_bind]
          cases scm.isEmpty <;> rfl
      | some ip =>
          have hrest : ¬Known scm items := by
            refine fun hrest => h fun x hx => ?_
            rcases List.mem_cons.mp hx with rfl | hx
            · exact ⟨ip, List.mem_of_find?_eq_some hfind, by simpa using List.find?_some hfind⟩
            · exact hrest x hx
          refine (perform_bind_of_ok (t := td) (a := ip) rfl).trans ?_
          rw [perform_bind, ih hrest]
          cases scm.isEmpty <;> rfl

/-! ### The check -/

/-- A record that an insert would double -/
def RRec.hit (r : RRec) (same : List UInt8 → Bool) : Bool := r.rStat.used && same r.rHead.data

theorem KeepsHead.hit {r r' : RRec} (h : KeepsHead r r') (same : List UInt8 → Bool) :
    r'.hit same = r.hit same := by
  unfold RRec.hit
  rw [h.used, h.rHead]

/-- The loop of the check from the slot `s` on -/
def existLoop (load : Loader) (same : List UInt8 → Bool) (pn s k : ℕ) : TblM Unit :=
  (List.range' s k).forM fun i => do
    let r ← slot load i pn
    throwIf (r.hit same) .exist

theorem existLoop_succ (same : List UInt8 → Bool) (pn s k : ℕ) :
    perform (existLoop svcLoad same pn s (k + 1)) td =
      if ((td.ensure pn s).tRec s).hit same then .ok (.error .exist, td.ensure pn s)
      else perform (existLoop svcLoad same pn (s + 1) k) (td.ensure pn s) := by
  have hloop : existLoop svcLoad same pn s (k + 1) =
      (slot svcLoad s pn >>= fun r => throwIf (r.hit same) .exist) >>= fun _ =>
        existLoop svcLoad same pn (s + 1) k := by
    unfold existLoop
    rw [List.range'_succ]
    rfl
  rw [hloop, perform_bind, perform_bind_of_ok perform_slot_load]
  unfold throwIf
  cases ((td.ensure pn s).tRec s).hit same <;> rfl

/-- What a slot is once it is read is what it is when all are read. -/
theorem hit_here (same : List UInt8 → Bool) (pn s k : ℕ) :
    ((td.ensureFrom pn (k + 1) s).tRec s).hit same = ((td.ensure pn s).tRec s).hit same :=
  (ensureFrom_keepsHead (td.ensure pn s) pn k (Nat.lt_succ_self s)).hit same

theorem existLoop_none {same : List UInt8 → Bool}
    (h : ∀ i, s ≤ i → i < s + k → ((td.ensureFrom pn k s).tRec i).hit same = false) :
    perform (existLoop svcLoad same pn s k) td = .ok (.ok (), td.ensureFrom pn k s) := by
  induction k generalizing td s with
  | zero => rfl
  | succ k ih =>
      have hhere := h s (Nat.le_refl s) (by omega)
      rw [hit_here] at hhere
      rw [existLoop_succ, hhere]
      exact ih fun i hi hlt => h i (by omega) (by omega)

theorem existLoop_some {same : List UInt8 → Bool} (hi : s ≤ i) (hlt : i < s + k)
    (hit : ((td.ensureFrom pn k s).tRec i).hit same = true)
    (h : ∀ j, s ≤ j → j < i → ((td.ensureFrom pn k s).tRec j).hit same = false) :
    perform (existLoop svcLoad same pn s k) td =
      .ok (.error .exist, td.ensureFrom pn (i + 1 - s) s) := by
  induction k generalizing td s with
  | zero => omega
  | succ k ih =>
      rw [existLoop_succ]
      rcases Nat.eq_or_lt_of_le hi with rfl | hi
      · rw [hit_here] at hit
        rw [if_pos hit, Nat.add_sub_cancel_left]
        rfl
      · have hhere := h s (Nat.le_refl s) hi
        rw [hit_here] at hhere
        have hlen : i + 1 - s = (i + 1 - (s + 1)) + 1 := by omega
        rw [hhere, hlen]
        exact ih hi (by omega) hit fun j hj hji => h j (by omega) hji

/-! ### A table that is read -/

/-- A load keeps a table settled whatever it reads over. -/
theorem svcLoad_settled {l : ℕ} (h : Settled td) : Settled (td.svcLoad s l) := by
  have hset := loadSwap_settled (s := s) (l := l) h
  unfold RTbl.svcLoad
  dsimp only
  split
  · exact hset
  · refine loadRange_settled hset fun j hj => ?_
    rw [loadSwap_range] at hj
    exact loadSwap_swap hj

theorem ensure_settled (h : Settled td) : Settled (td.ensure pn i) := by
  unfold RTbl.ensure
  split
  · exact h
  · exact svcLoad_settled h

theorem ensureFrom_settled (h : Settled td) : Settled (td.ensureFrom pn k s) := by
  induction k generalizing td s with
  | zero => exact h
  | succ k ih => exact ih (ensure_settled h)

theorem swapIn_cached {r : RRec} (h : r.rStat.cache = true) : r.swapIn.rStat.cache = true := by
  unfold RRec.swapIn
  split
  · rfl
  · exact h

/-- A record that is in memory stays there. -/
theorem svcLoad_keepsCached {l : ℕ} (h : (td.tRec j).rStat.cache = true) :
    ((td.svcLoad s l).tRec j).rStat.cache = true := by
  have hswap : ((td.loadSwap s l).tRec j).rStat.cache = true := by
    unfold RTbl.loadSwap
    split
    · change (if j < td.tRecNum then (td.tRec j).swapIn else td.tRec j).rStat.cache = true
      split
      · exact swapIn_cached h
      · exact h
    · exact h
  unfold RTbl.svcLoad
  dsimp only
  split
  · exact hswap
  · change (if j ∈ (td.loadSwap s l).range s l then _ else _ : RRec).rStat.cache = true
    split
    · rfl
    · exact hswap

theorem ensure_keepsCached (h : (td.tRec j).rStat.cache = true) :
    ((td.ensure pn i).tRec j).rStat.cache = true := by
  unfold RTbl.ensure
  split
  · exact h
  · exact svcLoad_keepsCached h

theorem ensureFrom_keepsCached (h : (td.tRec j).rStat.cache = true) :
    ((td.ensureFrom pn k s).tRec j).rStat.cache = true := by
  induction k generalizing td s with
  | zero => exact h
  | succ k ih => exact ih (ensure_keepsCached h)

theorem ensure_cached (hpn : 0 < pn) (hi : i < td.tRecNum) :
    ((td.ensure pn i).tRec i).rStat.cache = true := by
  unfold RTbl.ensure
  split
  · next hc => exact hc
  · exact svcLoad_cached hi hpn

theorem ensure_num : (td.ensure pn i).tRecNum = td.tRecNum := by rw [ensure_only]

theorem ensureFrom_num : (td.ensureFrom pn k s).tRecNum = td.tRecNum := by rw [ensureFrom_only]

theorem ensureFrom_cached (hpn : 0 < pn) (hs : s ≤ j) (hj : j < s + k) (hlt : j < td.tRecNum) :
    ((td.ensureFrom pn k s).tRec j).rStat.cache = true := by
  induction k generalizing td s with
  | zero => omega
  | succ k ih =>
      rcases Nat.eq_or_lt_of_le hs with rfl | hs
      · change (((td.ensure pn s).ensureFrom pn k (s + 1)).tRec s).rStat.cache = true
        exact ensureFrom_keepsCached (ensure_cached hpn hlt)
      · exact ih hs (by omega) (by rw [ensure_num]; exact hlt)

/-- The table when a check has read it -/
def RTbl.checked (td : RTbl) (items : List String) : RTbl :=
  if items.isEmpty then td else td.ensureFrom td.page td.tRecNum 0

theorem checked_num : (td.checked items).tRecNum = td.tRecNum := by
  unfold RTbl.checked
  split
  · rfl
  · exact ensureFrom_num

theorem checked_tScm : (td.checked items).tScm = td.tScm := by
  unfold RTbl.checked
  split
  · rfl
  · rw [ensureFrom_only]

theorem checked_allIn (h : Settled td) (hmem : items = [] → AllIn td) : AllIn (td.checked items) := by
  unfold RTbl.checked
  by_cases hnil : items = []
  · rw [if_pos (by simp [hnil])]
    exact hmem hnil
  · rw [if_neg (by simp [hnil])]
    intro j hj
    rw [ensureFrom_num] at hj
    refine (ensureFrom_settled h).inMemory ?_
    exact ensureFrom_cached (Nat.succ_pos _) (Nat.zero_le j) (by omega) hj

/-! ### The inserts -/

theorem findUnused_runs (load : Loader) (pn k i : ℕ)
    (h : ∀ j, i ≤ j → j < i + k → (u.tRec j).rStat.cache = true) :
    ∃ x, perform (findUnused load pn k i) u = .ok (.ok x, u) ∧
      ∀ y, x = some y → i ≤ y.1 ∧ y.1 < i + k ∧ y.2 = u.tRec y.1 ∧
        (u.tRec y.1).rStat.used = false := by
  induction k generalizing i with
  | zero =>
      refine ⟨none, rfl, fun y hy => ?_⟩
      cases hy
  | succ k ih =>
      have hslot : perform (slot load i pn) u = _ := perform_slot_cached (h i (Nat.le_refl i) (by omega)) pn
      unfold findUnused
      rw [perform_bind_of_ok hslot]
      by_cases hused : (u.tRec i).rStat.used = true
      · rw [if_pos hused]
        obtain ⟨x, hrun, hx⟩ := ih (i + 1) fun j hj hlt => h j (by omega) (by omega)
        refine ⟨x, hrun, fun y hy => ?_⟩
        obtain ⟨hle, hlt, hrest⟩ := hx y hy
        exact ⟨by omega, by omega, hrest⟩
      · rw [if_neg hused]
        refine ⟨some (i, u.tRec i), rfl, fun y hy => ?_⟩
        obtain rfl := Option.some.inj hy
        exact ⟨Nat.le_refl i, by omega, rfl, Bool.eq_false_iff.mpr hused⟩

theorem AllIn.extended (h : AllIn u) : AllIn u.extended := by
  intro j hj
  rw [extended_tRec]
  split
  · next hlt => exact h j hlt
  · next hge =>
      have hlt : j < u.tRecNum * 2 := hj
      rw [if_pos hlt]
      exact ⟨rfl, rfl⟩

theorem insertAt_self (data : List UInt8) :
    (u.insertAt ud mode data i).tRec i = (u.tRec i).inserted ud mode data i := by
  rw [insertAt_tRec, setRec_self]

theorem insertAt_ne (data : List UInt8) (hj : j ≠ i) : (u.insertAt ud mode data i).tRec j = u.tRec j := by
  rw [insertAt_tRec, setRec_ne _ hj]

theorem AllIn.insertAt (h : AllIn u) (hi : i < u.tRecNum) (data : List UInt8) :
    AllIn (u.insertAt ud mode data i) := by
  intro j hj
  rw [insertAt_tRecNum] at hj
  rcases eq_or_ne j i with rfl | hji
  · rw [insertAt_self]
    exact h j hi
  · rw [insertAt_ne data hji]
    exact h j hj

theorem HashOnly.tScm (h : HashOnly td u) : u.tScm = td.tScm := by rw [h]

theorem insertAt_tScm (data : List UInt8) : (u.insertAt ud mode data i).tScm = u.tScm :=
  hashAddAll_only.tScm

/-- What the inserts of `recs` have made of the table `w`, which is in memory. -/
structure Filled (w : RTbl) (recs : List (List UInt8)) (u : RTbl) : Prop where
  mem : AllIn u
  pos : 0 < u.tRecNum
  tScm : u.tScm = w.tScm
  inserted : Inserted w recs u

theorem Filled.insertAt (h : Filled w recs u) (hi : i < u.tRecNum)
    (hfree : (u.tRec i).rStat.used = false) (data : List UInt8) :
    Filled w (recs ++ [data]) (u.insertAt ud mode data i) where
  mem := h.mem.insertAt hi data
  pos := by
    rw [insertAt_tRecNum]
    exact h.pos
  tScm := (insertAt_tScm data).trans h.tScm
  inserted := h.inserted.insertAt hi hfree data

theorem Filled.extended (h : Filled w recs u) : Filled w recs u.extended where
  mem := h.mem.extended
  pos := by
    have hnum : u.extended.tRecNum = u.tRecNum * 2 := rfl
    have hpos := h.pos
    omega
  tScm := h.tScm
  inserted := h.inserted.extended

theorem insertOne_runs (load : Loader) (ud : Usr) (mode : RLock) (h : Filled w recs u) (data : List UInt8) :
    ∃ u', perform (insertOne load ud mode data) u = .ok (.ok (), u') ∧ Filled w (recs ++ [data]) u' := by
  obtain ⟨x, hrun, hx⟩ := findUnused_runs load (u := u) u.page (u.tRecNum - u.tUnusedIndex)
    u.tUnusedIndex fun j hj hlt => (h.mem j (by omega)).1
  cases x with
  | some x =>
      obtain ⟨hle, hlt, hrec, hfree⟩ := hx x rfl
      have hslot : perform (freeSlot load) u = .ok (.ok x, u) := by
        unfold freeSlot
        rw [perform_bind_of_ok perform_get, perform_bind_of_ok hrun]
        rfl
      refine ⟨u.insertAt ud mode data x.1, ?_, h.insertAt (by omega) hfree data⟩
      unfold insertOne
      rw [perform_bind_of_ok hslot, hrec]
      exact perform_insertRec data
  | none =>
      have hswap : ¬((List.range u.tRecNum).any fun i => (u.tRec i).rStat.swap) = true := by
        simp only [List.any_eq_true, List.mem_range, not_exists, not_and, Bool.not_eq_true]
        exact fun j hj => (h.mem j hj).2
      have hpos := h.pos
      have hslot : perform (freeSlot load) u =
          .ok (.ok (u.tRecNum, u.extended.tRec u.tRecNum), u.extended) := by
        unfold freeSlot
        rw [perform_bind_of_ok perform_get, perform_bind_of_ok hrun]
        change perform extend u = _
        rw [perform_extend, if_neg hswap, if_neg (by omega)]
      have hnum : u.extended.tRecNum = u.tRecNum * 2 := rfl
      refine ⟨u.extended.insertAt ud mode data u.tRecNum, ?_, h.extended.insertAt (by omega) ?_ data⟩
      · unfold insertOne
        rw [perform_bind_of_ok hslot]
        dsimp only
        rw [perform_insertRec]
      · rw [extended_tRec, if_neg (by omega), if_pos (by omega)]

theorem insertAll_runs (load : Loader) (ud : Usr) (mode : RLock) {done : List (List UInt8)}
    (h : Filled w done u) (recs : List (List UInt8)) :
    ∃ u', perform (recs.forM (insertOne load ud mode)) u = .ok (.ok (), u') ∧
      Filled w (done ++ recs) u' := by
  induction recs generalizing u done with
  | nil => exact ⟨u, rfl, by rwa [List.append_nil]⟩
  | cons data recs ih =>
      obtain ⟨u₁, hone, h₁⟩ := insertOne_runs load ud mode h data
      obtain ⟨u', hrest, h'⟩ := ih h₁
      refine ⟨u', (perform_bind_of_ok hone).trans hrest, ?_⟩
      rwa [List.append_assoc] at h'

/-! ### Equal records -/

/-- No two used records of a table are equal in all columns of a check. -/
def RTbl.Distinct (td : RTbl) (items : List String) : Prop :=
  ∀ i < td.tRecNum, ∀ j < td.tRecNum, i ≠ j →
    (td.resolve i).rStat.used = true → (td.resolve j).rStat.used = true →
      sameOn td.tScm items (td.resolve i).rHead.data (td.resolve j).rHead.data = false

/-- No new record is equal to a used one. -/
def RTbl.Apart (td : RTbl) (items : List String) (recs : List (List UInt8)) : Prop :=
  ∀ j < td.tRecNum, (td.resolve j).rStat.used = true → ∀ rp ∈ recs,
    sameOn td.tScm items rp (td.resolve j).rHead.data = false

theorem Filled.distinct_iff (h : Filled w recs u) (hw : AllIn w) : u.Distinct items ↔
    w.Distinct items ∧ recs.Pairwise (fun a b => sameOn w.tScm items a b = false) ∧
      w.Apart items recs := by
  obtain ⟨slots, hnodup, hdata, hslots, hnum, hsame, hused⟩ := h.inserted
  have hu {j : ℕ} (hj : j < u.tRecNum) : u.resolve j = u.tRec j := resolve_of_inMemory (h.mem j hj)
  have hold {j : ℕ} (hj : j < w.tRecNum) (hmem : j ∉ slots) : u.resolve j = w.resolve j := by
    rw [hu (by omega), resolve_of_inMemory (hw j hj), hsame j hj hmem]
  have hnew {j : ℕ} (hj : j < w.tRecNum) (hwused : (w.resolve j).rStat.used = true) : j ∉ slots := by
    intro hmem
    have hfree := (hslots j hmem).2.2 hj
    rw [resolve_of_inMemory (hw j hj)] at hwused
    cases hfree.symm.trans hwused
  have hslot {j : ℕ} (hmem : j ∈ slots) : j < u.tRecNum ∧ (u.resolve j).rStat.used = true ∧
      (u.resolve j).rHead.data ∈ recs := by
    obtain ⟨hlt, hjused, -⟩ := hslots j hmem
    rw [hu hlt, ← hdata]
    exact ⟨hlt, hjused, List.mem_map_of_mem hmem⟩
  constructor
  · intro hall
    rw [RTbl.Distinct, h.tScm] at hall
    refine ⟨fun i hi j hj hij hiu hju => ?_, ?_, fun j hj hju rp hrp => ?_⟩
    · have hi' := hold hi (hnew hi hiu)
      have hj' := hold hj (hnew hj hju)
      rw [← hi', ← hj']
      exact hall i (by omega) j (by omega) hij (hi' ▸ hiu) (hj' ▸ hju)
    · rw [← hdata, List.pairwise_map]
      refine hnodup.imp_of_mem fun {i j} hi hj hij => ?_
      have hresult := hall i (hslot hi).1 j (hslot hj).1 hij (hslot hi).2.1 (hslot hj).2.1
      rwa [hu (hslot hi).1, hu (hslot hj).1] at hresult
    · have hj' := hold hj (hnew hj hju)
      rw [← hdata] at hrp
      obtain ⟨i, hi, rfl⟩ := List.mem_map.mp hrp
      have hij : i ≠ j := fun hij => hnew hj hju (hij ▸ hi)
      have hresult := hall i (hslot hi).1 j (by omega) hij (hslot hi).2.1 (hj' ▸ hju)
      rwa [hu (hslot hi).1, hj'] at hresult
  · rintro ⟨hwd, hpair, hapart⟩ i hi j hj hij hiu hju
    rw [h.tScm]
    have hfresh {i : ℕ} (hi : i < u.tRecNum) (hiu : (u.resolve i).rStat.used = true) :
        i ∈ slots ∨ i ∉ slots ∧ i < w.tRecNum := by
      rw [hu hi] at hiu
      by_cases hmem : i ∈ slots
      · exact .inl hmem
      · exact .inr ⟨hmem, (hused i hi hiu).resolve_left hmem⟩
    rcases hfresh hi hiu with his | ⟨his, hiw⟩
    · rcases hfresh hj hju with hjs | ⟨hjs, hjw⟩
      · rw [← hdata, List.pairwise_map] at hpair
        rw [hu hi, hu hj]
        have : Std.Symm fun a b =>
            sameOn w.tScm items (u.tRec a).rHead.data (u.tRec b).rHead.data = false :=
          ⟨fun a b hab => (sameOn_comm _ _).trans hab⟩
        exact hpair.forall his hjs hij
      · rw [hold hjw hjs] at hju ⊢
        exact hapart j hjw hju _ (hslot his).2.2
    · rw [hold hiw his] at hiu ⊢
      rcases hfresh hj hju with hjs | ⟨hjs, hjw⟩
      · rw [sameOn_comm]
        exact hapart i hiw hiu _ (hslot hjs).2.2
      · rw [hold hjw hjs] at hju ⊢
        exact hwd i hiw j hjw hij hiu hju

/-! ### The request -/

/-- The first used record, as it is read, that is equal to a new one. Without items
none is looked for. -/
def RTbl.firstSame (td : RTbl) (items : List String) (recs : List (List UInt8)) : Option ℕ :=
  (List.range (if items.isEmpty then 0 else td.tRecNum)).find? fun i =>
    ((td.checked items).tRec i).hit fun data => recs.any fun rp => sameOn td.tScm items rp data

theorem columns_isEmpty (h : Known td.tScm items) : (columns td.tScm items).isEmpty = items.isEmpty := by
  cases items with
  | nil => rfl
  | cons name items =>
      obtain ⟨ip, hip⟩ := find_isSome (h name List.mem_cons_self)
      have hcolumns : columns td.tScm (name :: items) = ip :: columns td.tScm items :=
        List.filterMap_cons_some hip
      rw [hcolumns]
      rfl

theorem checkExist_loop (same : List UInt8 → Bool) (h : Known td.tScm items) :
    perform (checkExist svcLoad (columns td.tScm items) same) td =
      perform (existLoop svcLoad same td.page 0 (if items.isEmpty then 0 else td.tRecNum)) td := by
  unfold checkExist existLoop
  rw [perform_bind_of_ok perform_get, columns_isEmpty h, ← List.range_eq_range']
  rfl

theorem perform_checkExist_none (h : Known td.tScm items) (hnone : td.firstSame items recs = none) :
    perform (checkExist svcLoad (columns td.tScm items) fun data =>
      recs.any fun rp => sameOn td.tScm items rp data) td = .ok (.ok (), td.checked items) := by
  rw [checkExist_loop _ h]
  unfold RTbl.firstSame RTbl.checked at *
  cases items with
  | nil => rfl
  | cons name items =>
      refine existLoop_none fun i _ hi => ?_
      have hall := List.find?_range_eq_none.mp hnone i (by simpa using hi)
      simpa using hall

theorem perform_checkExist_some (h : Known td.tScm items) (hsome : td.firstSame items recs = some i) :
    perform (checkExist svcLoad (columns td.tScm items) fun data =>
      recs.any fun rp => sameOn td.tScm items rp data) td =
        .ok (.error .exist, td.ensureFrom td.page (i + 1) 0) := by
  rw [checkExist_loop _ h]
  unfold RTbl.firstSame RTbl.checked at *
  cases items with
  | nil => cases hsome
  | cons name items =>
      obtain ⟨hit, hmem, hall⟩ := List.find?_range_eq_some.mp hsome
      have hlt : i < td.tRecNum := by simpa using hmem
      refine existLoop_some (Nat.zero_le i) (by simpa using hlt) hit fun j _ hj => ?_
      simpa using hall j hj

/-- An insert up to the check -/
theorem svcInsert_checks (hlock : td.checkLock ud true = false) (h : Known td.tScm items) :
    perform (svcInsert svcLoad ud items mode recs) td =
      perform (checkExist svcLoad (columns td.tScm items)
        (fun data => recs.any fun rp => sameOn td.tScm items rp data) >>= fun _ =>
          recs.forM (insertOne svcLoad ud mode)) td := by
  unfold svcInsert
  rw [perform_bind_of_ok perform_get, hlock]
  change perform (findItems td.tScm items >>= _) td = _
  rw [perform_bind_of_ok (perform_findItems h)]
  rfl

theorem svcInsert_locked (hlock : td.checkLock ud true = true) :
    perform (svcInsert svcLoad ud items mode recs) td = .ok (.error .tblBusy, td) := by
  unfold svcInsert
  rw [perform_bind_of_ok perform_get, hlock]
  rfl

theorem svcInsert_unknown (hlock : td.checkLock ud true = false) (h : ¬Known td.tScm items) :
    perform (svcInsert svcLoad ud items mode recs) td =
      if td.tScm.isEmpty then .ok (.error .noItem, td) else .error .noItem := by
  unfold svcInsert
  rw [perform_bind_of_ok perform_get, hlock]
  change perform (findItems td.tScm items >>= _) td = _
  rw [perform_bind, perform_findItems_unknown h]
  cases td.tScm.isEmpty <;> rfl

theorem svcInsert_exist (hlock : td.checkLock ud true = false) (h : Known td.tScm items)
    (hsome : td.firstSame items recs = some i) :
    perform (svcInsert svcLoad ud items mode recs) td =
      .ok (.error .exist, td.ensureFrom td.page (i + 1) 0) := by
  rw [svcInsert_checks hlock h]
  exact perform_bind_of_error (perform_checkExist_some h hsome)

theorem svcInsert_inserts (hlock : td.checkLock ud true = false) (h : Known td.tScm items)
    (hnone : td.firstSame items recs = none) :
    perform (svcInsert svcLoad ud items mode recs) td =
      perform (recs.forM (insertOne svcLoad ud mode)) (td.checked items) := by
  rw [svcInsert_checks hlock h]
  exact perform_bind_of_ok (perform_checkExist_none h hnone)

/-- A table without slots cannot be made larger. -/
theorem insert_noSlot (hnum : w.tRecNum = 0) (data : List UInt8) :
    perform ((data :: recs).forM (insertOne svcLoad ud mode)) w = .error .noSlot := by
  have hslot : perform (freeSlot svcLoad) w = .error .noSlot := by
    unfold freeSlot
    rw [perform_bind_of_ok perform_get, hnum, Nat.zero_sub]
    change perform extend w = _
    rw [perform_extend, hnum]
    rfl
  have hone : perform (insertOne svcLoad ud mode data) w = .error .noSlot := by
    unfold insertOne
    rw [perform_bind, hslot]
    rfl
  change perform (insertOne svcLoad ud mode data >>= _) w = _
  rw [perform_bind, hone]
  rfl

/-- What is asked of an insert with the items `items` -/
def InsertRight (td : RTbl) (ud : Usr) (items : List String) (mode : RLock)
    (recs : List (List UInt8)) : Prop :=
  ∃ r u, perform (svcInsert svcLoad ud items mode recs) td = .ok (r, u) ∧
    (td.checkLock ud true = false → ¬Known td.tScm items → r = .error .noItem) ∧
    (r = .ok () → td.Distinct items → u.Distinct items) ∧
    (r = .error .exist → u.loaded = td.loaded)

/-- A request that is refused by a lock or for a schema without columns, or with names
of columns. If a record is found to exist, the loads up to it have lost nothing. If not,
there is a slot for the new records, and if the records of the table were distinct, they
still are when they are read and the new ones are distinct too. -/
def InsertHolds (td : RTbl) (ud : Usr) (items : List String) (recs : List (List UInt8)) : Prop :=
  td.checkLock ud true = true ∨ (¬Known td.tScm items ∧ td.tScm = []) ∨
    Known td.tScm items ∧
      ((∃ i, td.firstSame items recs = some i ∧
          (td.ensureFrom td.page (i + 1) 0).loaded = td.loaded) ∨
        td.firstSame items recs = none ∧ (recs = [] ∨ 0 < td.tRecNum) ∧
          (td.Distinct items → (td.checked items).Distinct items ∧
            recs.Pairwise (fun a b => sameOn td.tScm items a b = false) ∧
              (td.checked items).Apart items recs))

/-- The inserts of a request that has been checked -/
theorem insert_run (ud : Usr) (mode : RLock) (hset : Settled td)
    (hmem : items = [] → recs = [] ∨ AllIn td)
    (hroom : recs = [] ∨ 0 < td.tRecNum) :
    ∃ u, perform (recs.forM (insertOne svcLoad ud mode)) (td.checked items) = .ok (.ok (), u) ∧
      (u.Distinct items ↔ (td.checked items).Distinct items ∧
        recs.Pairwise (fun a b => sameOn td.tScm items a b = false) ∧
          (td.checked items).Apart items recs) := by
  by_cases hnil : recs = []
  · subst hnil
    refine ⟨td.checked items, rfl, ?_⟩
    have hapart : (td.checked items).Apart items [] := fun j _ _ rp hrp => absurd hrp List.not_mem_nil
    exact ⟨fun h => ⟨h, .nil, hapart⟩, fun h => h.1⟩
  · have hall := checked_allIn hset fun hitems => (hmem hitems).resolve_left hnil
    have hfirst : Filled (td.checked items) [] (td.checked items) :=
      ⟨hall, by rw [checked_num]; exact hroom.resolve_left hnil, rfl, .refl _⟩
    obtain ⟨u, hrun, hfilled⟩ := insertAll_runs svcLoad ud mode hfirst recs
    refine ⟨u, hrun, ?_⟩
    rw [hfilled.distinct_iff hall, checked_tScm]
    rfl

theorem intTable_settled (data1 data2 : List UInt8) : Settled (intTable data1 data2) :=
  fun _ => ⟨fun _ => rfl, fun h => Bool.noConfusion h⟩

end PaxosSolutions.XjPing
