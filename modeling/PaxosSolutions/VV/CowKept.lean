import PaxosSolutions.VV.CopyOnWrite

/-!
# The own units of a volume

What the node that has the lock of a group finds in its hash are the units of the group in
the table of the database and in its array. Each lock that changes hands, each group of
segments and each mark keeps this.
-/
namespace PaxosSolutions.Cow
open Lib

/-! ### Groups of units -/

section Groups
variable {pVV : VV} {u b d vs : ℕ}

theorem vsSize_eq (pVV : VV) : pVV.vsSize = SNAP_UNIT_SIZE * (4096 * pVV.vvStripes) := by
  unfold VV.vsSize VV_LS_SIZE VV_UNIT_SIZE VV_UNITS SNAP_UNIT_SIZE
  omega

theorem b2vs_eq_unit (pVV : VV) (b : ℕ) : b2vs pVV b = b / SNAP_UNIT_SIZE / (4096 * pVV.vvStripes) := by
  unfold b2vs
  rw [vsSize_eq, Nat.div_div_eq_div_mul]

theorem b2vs_unit (pVV : VV) (b : ℕ) : b2vs pVV (b / SNAP_UNIT_SIZE * SNAP_UNIT_SIZE) = b2vs pVV b := by
  rw [b2vs_eq_unit, b2vs_eq_unit, Nat.mul_div_cancel _ (by decide)]

/-- The group of a unit is that of its bytes. -/
theorem unitDlg_eq (pVV : VV) (b : ℕ) : unitDlg pVV (b / SNAP_UNIT_SIZE) = vs2dlg (b2vs pVV b) := by
  unfold unitDlg
  rw [b2vs_unit]

theorem dlg2su_iff (hstripes : 1 ≤ pVV.vvStripes) :
    dlg2su pVV d ≤ u ∧ u < dlg2su pVV d + dlg2su pVV 1 ↔ unitDlg pVV u = d := by
  have hsu : ∀ d, dlg2su pVV d = 4096 * pVV.vvStripes * 16 * d := by
    intro d
    unfold dlg2su VV_VS_DLG_SIZE
    rw [vsSize_eq, show d * (16 * (SNAP_UNIT_SIZE * (4096 * pVV.vvStripes))) =
      SNAP_UNIT_SIZE * (4096 * pVV.vvStripes * 16 * d) by ring, Nat.mul_div_cancel_left _ (by decide)]
  have hdlg : unitDlg pVV u = u / (4096 * pVV.vvStripes * 16) := by
    unfold unitDlg vs2dlg VV_VS_DLG_SIZE
    rw [b2vs_eq_unit, Nat.mul_div_cancel _ (by decide), Nat.div_div_eq_div_mul]
  have hpos : 0 < 4096 * pVV.vvStripes * 16 := by omega
  rw [hsu, hsu, hdlg, Nat.div_eq_iff hpos, Nat.mul_comm d, Nat.mul_one]
  omega

theorem vs2dlg_iff : d * VV_VS_DLG_SIZE ≤ vs ∧ vs < d * VV_VS_DLG_SIZE + VV_VS_DLG_SIZE ↔ vs2dlg vs = d := by
  unfold vs2dlg VV_VS_DLG_SIZE
  omega

end Groups

/-! ### The tables of a node -/

theorem setHashVS_mem {l : List (ℕ × Bool)} {vs v : ℕ} :
    v ∈ (setHashVS l vs).map (·.1) ↔ v ∈ l.map (·.1) ∨ v = vs := by
  unfold setHashVS
  by_cases h : l.any (·.1 = vs) = true
  · have hmap : (l.map fun p => if p.1 = vs then (vs, true) else p).map (·.1) = l.map (·.1) := by
      rw [List.map_map]
      refine List.map_congr_left ?_
      intro p _
      by_cases hp : p.1 = vs
      · rw [Function.comp_apply, if_pos hp, hp]
      · rw [Function.comp_apply, if_neg hp]
    obtain ⟨p, hp, hvs⟩ := List.any_eq_true.mp h
    rw [if_pos h, hmap]
    refine ⟨.inl, ?_⟩
    rintro (hv | rfl)
    · exact hv
    · exact List.mem_map.mpr ⟨p, hp, of_decide_eq_true hvs⟩
  · rw [if_neg h, List.map_append, List.mem_append, List.map_singleton, List.mem_singleton]

theorem setHashVS_defined {l : List (ℕ × Bool)} {vs : ℕ} (h : ∀ p ∈ l, p.2 = true) :
    ∀ p ∈ setHashVS l vs, p.2 = true := by
  intro p hp
  unfold setHashVS at hp
  split_ifs at hp
  · obtain ⟨q, hq, rfl⟩ := List.mem_map.mp hp
    by_cases hvs : q.1 = vs
    · rw [if_pos hvs]
    · rw [if_neg hvs]
      exact h q hq
  · rcases List.mem_append.mp hp with hp | hp
    · exact h p hp
    · rw [List.mem_singleton.mp hp]

/-- The groups of segments after the rows of a table -/
theorem foldl_setHashVS (vss : List ℕ) (l : List (ℕ × Bool)) (h : ∀ p ∈ l, p.2 = true) :
    (∀ v, v ∈ (vss.foldl setHashVS l).map (·.1) ↔ v ∈ l.map (·.1) ∨ v ∈ vss) ∧
      ∀ p ∈ vss.foldl setHashVS l, p.2 = true := by
  induction vss generalizing l with
  | nil => exact ⟨fun v => ⟨.inl, fun h => h.resolve_right List.not_mem_nil⟩, h⟩
  | cons vs vss ih =>
      obtain ⟨hmem, hdefined⟩ := ih (setHashVS l vs) (setHashVS_defined h)
      refine ⟨?_, hdefined⟩
      intro v
      rw [List.foldl_cons, hmem, setHashVS_mem, List.mem_cons, or_assoc]

theorem setHashCOW_numbers {us : List UInt64} {heap : ℕ} (l : List ℕ) {d : NWGadget.DHash Unit Unit}
    (h : d.Numbers us heap) (hheap : 0 < heap) :
    (setHashCOW heap l d).Numbers (us ++ l.map UInt64.ofNat) (heap + l.length) := by
  induction l generalizing d us heap with
  | nil =>
      rw [List.map_nil, List.append_nil]
      exact h
  | cons u l ih =>
      have hrest := ih (h.put (unitKey u) () hheap) (Nat.succ_pos heap)
      rw [List.append_assoc] at hrest
      rw [List.length_cons, Nat.add_comm l.length, ← Nat.add_assoc]
      exact hrest

/-- What a node has that has the lock of a group. -/
structure TabsHeld (pVV : VV) (cow wrTbl : List ℕ) (heap d : ℕ) (pDlg : VSDlgTabs) : Prop where
  units : ∃ ns : List ℕ, pDlg.vdDHashCOW.Numbers (ns.map UInt64.ofNat) heap ∧ (∀ u ∈ ns, u < 2 ^ 64) ∧
    ∀ u, u ∈ ns ↔ unitDlg pVV u = d ∧ (u ∈ cow ∨ u ∈ pDlg.vdPCOW)
  groups : ∀ vs, vs ∈ pDlg.vdHashListVS.map (·.1) ↔ vs ∈ wrTbl ∧ vs2dlg vs = d
  defined : ∀ p ∈ pDlg.vdHashListVS, p.2 = true
  nodup : pDlg.vdPCOW.Nodup
  apart : ∀ u ∈ pDlg.vdPCOW, u ∉ cow ∧ unitDlg pVV u = d

/-- What a node has that does not have the lock. -/
structure TabsFree (heap : ℕ) (pDlg : VSDlgTabs) : Prop where
  units : pDlg.vdDHashCOW.Numbers [] heap
  groups : pDlg.vdHashListVS = []
  added : pDlg.vdPCOW = []

section Tabs
variable {pVV : VV} {cow cow' wrTbl wrTbl' : List ℕ} {heap heap' d u : ℕ} {pDlg : VSDlgTabs}

theorem ofNat_inj {u v : ℕ} (hu : u < 2 ^ 64) (hv : v < 2 ^ 64) (h : UInt64.ofNat u = UInt64.ofNat v) :
    u = v := by
  have hnat := congrArg UInt64.toNat h
  rw [UInt64.toNat_ofNat_of_lt' hu, UInt64.toNat_ofNat_of_lt' hv] at hnat
  exact hnat

/-- What else is in the tables of the database does not matter. -/
theorem TabsHeld.frame (h : TabsHeld pVV cow wrTbl heap d pDlg)
    (hcow : ∀ u, unitDlg pVV u = d → (u ∈ cow' ↔ u ∈ cow))
    (htbl : ∀ vs, vs2dlg vs = d → (vs ∈ wrTbl' ↔ vs ∈ wrTbl)) (hheap : heap ≤ heap') :
    TabsHeld pVV cow' wrTbl' heap' d pDlg := by
  obtain ⟨ns, hnumbers, hsmall, hmem⟩ := h.units
  refine ⟨⟨ns, hnumbers.mono hheap, hsmall, ?_⟩, ?_, h.defined, h.nodup, ?_⟩
  · intro u
    rw [hmem]
    refine and_congr_right ?_
    intro hu
    rw [hcow u hu]
  · intro vs
    rw [h.groups, and_comm, and_comm (a := vs ∈ wrTbl')]
    refine and_congr_right ?_
    intro hvs
    rw [htbl vs hvs]
  · intro u hu
    obtain ⟨hnot, hd⟩ := h.apart u hu
    exact ⟨fun hc => hnot ((hcow u hd).mp hc), hd⟩

/-- The hash has a unit of the group if the table of the database or the array has it. -/
theorem TabsHeld.get (h : TabsHeld pVV cow wrTbl heap d pDlg) (hsmall : u < 2 ^ 64) (hu : unitDlg pVV u = d) :
    ((pDlg.vdDHashCOW.get (unitKey u)).1.isSome = true ↔ u ∈ cow ∨ u ∈ pDlg.vdPCOW) ∧
      TabsHeld pVV cow wrTbl heap d { pDlg with vdDHashCOW := (pDlg.vdDHashCOW.get (unitKey u)).2 } := by
  obtain ⟨ns, hnumbers, hlt, hmem⟩ := h.units
  obtain ⟨hfound, hafter⟩ := hnumbers.get (unitKey u)
  refine ⟨?_, ⟨ns, hafter, hlt, hmem⟩, h.groups, h.defined, h.nodup, h.apart⟩
  have hin : (unitKey u).u64 ∈ ns.map UInt64.ofNat ↔ u ∈ ns := by
    constructor
    · intro hm
      obtain ⟨v, hv, heq⟩ := List.mem_map.mp hm
      rw [← ofNat_inj (hlt v hv) hsmall heq]
      exact hv
    · exact fun hm => List.mem_map_of_mem hm
  rw [hfound, hin, hmem]
  exact ⟨fun h => h.2, fun h => ⟨hu, h⟩⟩

theorem TabsFree.mono (h : TabsFree heap pDlg) (hle : heap ≤ heap') : TabsFree heap' pDlg :=
  ⟨h.units.mono hle, h.groups, h.added⟩

/-- `_VSDlgTerm` leaves nothing, if what was added went to the database. -/
theorem VSDlgTabs.term_free {us : List UInt64} {put : Bool} (h : pDlg.vdDHashCOW.Numbers us heap)
    (hput : pDlg.vdPCOW = [] ∨ put = true) : TabsFree heap (pDlg.term put) := by
  refine ⟨h.clear, rfl, ?_⟩
  unfold VSDlgTabs.term
  rcases hput with hnil | hput
  · rw [hnil]
    cases put <;> rfl
  · rw [hput]
    rfl

/-- `_VSDlgInit` gives a node what the tables of the database have of the group. -/
theorem TabsFree.init (h : TabsFree heap pDlg) (hstripes : 1 ≤ pVV.vvStripes) (hheap : 0 < heap)
    (hsmall : ∀ u ∈ cow, u < 2 ^ 64) :
    TabsHeld pVV cow wrTbl
      (heap + (cow.filter fun u => dlg2su pVV d ≤ u ∧ u < dlg2su pVV d + dlg2su pVV 1).length) d
      { pDlg with
        vdHashListVS := (wrTbl.filter fun vs => d * VV_VS_DLG_SIZE ≤ vs ∧
          vs < d * VV_VS_DLG_SIZE + VV_VS_DLG_SIZE).foldl setHashVS pDlg.vdHashListVS
        vdDHashCOW := setHashCOW heap
          (cow.filter fun u => dlg2su pVV d ≤ u ∧ u < dlg2su pVV d + dlg2su pVV 1) pDlg.vdDHashCOW } := by
  have hnumbers := setHashCOW_numbers
    (cow.filter fun u => dlg2su pVV d ≤ u ∧ u < dlg2su pVV d + dlg2su pVV 1) h.units hheap
  obtain ⟨hmem, hdefined⟩ := foldl_setHashVS (wrTbl.filter fun vs => d * VV_VS_DLG_SIZE ≤ vs ∧
    vs < d * VV_VS_DLG_SIZE + VV_VS_DLG_SIZE) pDlg.vdHashListVS (by
      rw [h.groups]
      intro p hp
      cases hp)
  refine ⟨⟨_, hnumbers, ?_, ?_⟩, ?_, hdefined, ?_, ?_⟩
  · intro u hu
    exact hsmall u (List.mem_filter.mp hu).1
  · intro u
    rw [List.mem_filter, decide_eq_true_eq, dlg2su_iff hstripes, h.added, and_comm]
    exact and_congr_right fun _ => (or_iff_left List.not_mem_nil).symm
  · intro vs
    rw [hmem, h.groups, List.mem_filter, decide_eq_true_eq, vs2dlg_iff]
    exact or_iff_right List.not_mem_nil
  · rw [h.added]
    exact List.nodup_nil
  · intro u hu
    rw [h.added] at hu
    cases hu

end Tabs

/-! ### All nodes -/

/-- The nodes with a lock have what the database has, and the others have nothing. -/
structure Book (pVV : VV) (s : CowState) : Prop where
  stripes : 1 ≤ pVV.vvStripes
  heap : 0 < s.heap
  small : ∀ u ∈ s.cow, u < 2 ^ 64
  added : ∀ d n, ∀ u ∈ (s.tabs d n).vdPCOW, u < 2 ^ 64
  held : ∀ d, ∀ n ∈ (s.lock d).owners, TabsHeld pVV s.cow s.wrTbl s.heap d (s.tabs d n)
  free : ∀ d n, n ∉ (s.lock d).owners → TabsFree s.heap (s.tabs d n)
  read : ∀ d ns, s.lock d = .r ns → ∀ n, (s.tabs d n).vdPCOW = []
  room : ∀ d n, (s.tabs d n).vdPCOW.length ≤ (s.tabs d n).vdSCOW
  once : ∀ d, (s.lock d).owners.Nodup

/-- A step that records nothing more and leaves the bytes alone -/
structure SameUnits (pVV : VV) (s t : CowState) : Prop where
  recorded : ∀ u, t.Recorded pVV u ↔ s.Recorded pVV u
  wrTbl : t.wrTbl = s.wrTbl
  segs : t.segs = s.segs
  vol : t.vol = s.vol

section Locks
variable {pVV : VV} {s t : CowState} {env : CowEnv} {d d' n m u : ℕ}

theorem SameUnits.refl (s : CowState) : SameUnits pVV s s := ⟨fun _ => Iff.rfl, rfl, rfl, rfl⟩

theorem SameUnits.trans {r : CowState} (h : SameUnits pVV s t) (h' : SameUnits pVV t r) : SameUnits pVV s r :=
  ⟨fun u => (h'.recorded u).trans (h.recorded u), h'.wrTbl.trans h.wrTbl, h'.segs.trans h.segs,
    h'.vol.trans h.vol⟩

theorem VSLock.mem_without {l : VSLock} : m ∈ (l.without n).owners ↔ m ∈ l.owners ∧ m ≠ n := by
  cases l with
  | free =>
      change m ∈ [] ↔ m ∈ [] ∧ m ≠ n
      rw [List.mem_nil_iff, false_and]
  | r ns =>
      have hfilter : m ∈ ns.filter (· ≠ n) ↔ m ∈ ns ∧ m ≠ n := by
        rw [List.mem_filter, decide_eq_true_eq]
      dsimp only [VSLock.without]
      split_ifs with hnil
      · rw [hnil] at hfilter
        exact hfilter
      · exact hfilter
  | w k =>
      dsimp only [VSLock.without]
      split_ifs with hk
      · subst hk
        change m ∈ [] ↔ m ∈ [k] ∧ m ≠ k
        rw [List.mem_nil_iff, List.mem_singleton, and_not_self_iff]
      · change m ∈ [k] ↔ m ∈ [k] ∧ m ≠ n
        rw [List.mem_singleton]
        refine ⟨?_, fun h => h.1⟩
        rintro rfl
        exact ⟨rfl, hk⟩

theorem VSLock.nodup_without {l : VSLock} (h : l.owners.Nodup) : (l.without n).owners.Nodup := by
  cases l with
  | free => exact List.nodup_nil
  | r ns =>
      dsimp only [VSLock.without]
      split_ifs
      · exact List.nodup_nil
      · exact List.Nodup.filter _ h
  | w k =>
      dsimp only [VSLock.without]
      split_ifs
      · exact List.nodup_nil
      · exact h

theorem VSLock.without_r {l : VSLock} {ns : List ℕ} (h : l.without n = .r ns) : ∃ ns', l = .r ns' := by
  cases l with
  | free => cases h
  | r ns' => exact ⟨ns', rfl⟩
  | w k =>
      dsimp only [VSLock.without] at h
      split_ifs at h

theorem setTabs_self {pDlg : VSDlgTabs} : (s.setTabs d n pDlg).tabs d n = pDlg := by
  change Function.update s.tabs d (Function.update (s.tabs d) n pDlg) d n = pDlg
  rw [Function.update_self, Function.update_self]

theorem setTabs_other {pDlg : VSDlgTabs} (h : d' ≠ d ∨ m ≠ n) :
    (s.setTabs d n pDlg).tabs d' m = s.tabs d' m := by
  change Function.update s.tabs d (Function.update (s.tabs d) n pDlg) d' m = s.tabs d' m
  by_cases hd : d' = d
  · subst hd
    rw [Function.update_self, Function.update_of_ne (h.resolve_left (fun hne => hne rfl))]
  · rw [Function.update_of_ne hd]

section GiveUp
variable (hput : (s.tabs d n).vdPCOW = [] ∨ env.putHashCOW d n = true)
include hput

theorem giveUp_cow : u ∈ (s.giveUp env d n).cow ↔ u ∈ s.cow ∨ u ∈ (s.tabs d n).vdPCOW := by
  change u ∈ (if env.putHashCOW d n = true then s.cow ++ (s.tabs d n).vdPCOW else s.cow) ↔ _
  rcases hput with hnil | hput
  · rw [hnil, List.append_nil, ite_self]
    exact (or_iff_left List.not_mem_nil).symm
  · rw [if_pos hput, List.mem_append]

omit hput in
theorem giveUp_other (h : d' ≠ d ∨ m ≠ n) : (s.giveUp env d n).tabs d' m = s.tabs d' m := setTabs_other h

omit hput in
theorem giveUp_self : (s.giveUp env d n).tabs d n = (s.tabs d n).term (env.putHashCOW d n) := setTabs_self

omit hput in
theorem giveUp_lock : (s.giveUp env d n).lock d = (s.lock d).without n :=
  Function.update_self ..

omit hput in
theorem giveUp_lock_other (h : d' ≠ d) : (s.giveUp env d n).lock d' = s.lock d' :=
  Function.update_of_ne h ..

theorem giveUp_free (hb : Book pVV s) (hn : n ∈ (s.lock d).owners) :
    TabsFree s.heap ((s.giveUp env d n).tabs d n) := by
  obtain ⟨ns, hnumbers, -⟩ := (hb.held d n hn).units
  rw [giveUp_self]
  exact VSDlgTabs.term_free hnumbers hput

omit hput in
theorem giveUp_owners : m ∈ ((s.giveUp env d n).lock d').owners ↔
    m ∈ (s.lock d').owners ∧ (d' ≠ d ∨ m ≠ n) := by
  by_cases hd : d' = d
  · subst hd
    rw [giveUp_lock, VSLock.mem_without]
    exact and_congr_right fun _ => (or_iff_right (fun h => h rfl)).symm
  · rw [giveUp_lock_other hd]
    exact ⟨fun h => ⟨h, .inl hd⟩, fun h => h.1⟩

/-- A node that gives a lock up leaves every unit recorded. -/
theorem giveUp_same (hb : Book pVV s) (hn : n ∈ (s.lock d).owners) : SameUnits pVV s (s.giveUp env d n) := by
  refine ⟨?_, rfl, rfl, rfl⟩
  intro u
  unfold CowState.Recorded
  rw [giveUp_cow hput]
  constructor
  · rintro ((hu | hu) | ⟨m, hm, hu⟩)
    · exact .inl hu
    · rw [((hb.held d n hn).apart u hu).2]
      exact .inr ⟨n, hn, hu⟩
    · obtain ⟨hm, hother⟩ := giveUp_owners.mp hm
      rw [giveUp_other hother] at hu
      exact .inr ⟨m, hm, hu⟩
  · rintro (hu | ⟨m, hm, hu⟩)
    · exact .inl (.inl hu)
    · by_cases hself : unitDlg pVV u = d ∧ m = n
      · rw [hself.1, hself.2] at hu
        exact .inl (.inr hu)
      · have hother : unitDlg pVV u ≠ d ∨ m ≠ n := not_and_or.mp hself
        refine .inr ⟨m, giveUp_owners.mpr ⟨hm, hother⟩, ?_⟩
        rw [giveUp_other hother]
        exact hu

theorem giveUp_book (hb : Book pVV s) (hn : n ∈ (s.lock d).owners) : Book pVV (s.giveUp env d n) := by
  have hfree := giveUp_free hput hb hn
  refine ⟨hb.stripes, hb.heap, ?_, ?_, ?_, ?_, ?_, ?_, ?_⟩
  · intro u hu
    rcases (giveUp_cow hput).mp hu with hu | hu
    · exact hb.small u hu
    · exact hb.added d n u hu
  · intro d' m u hu
    by_cases hself : d' = d ∧ m = n
    · rw [hself.1, hself.2, hfree.added] at hu
      cases hu
    · rw [giveUp_other (not_and_or.mp hself)] at hu
      exact hb.added d' m u hu
  · intro d' m hm
    obtain ⟨hm, hother⟩ := giveUp_owners.mp hm
    rw [giveUp_other hother]
    refine (hb.held d' m hm).frame ?_ (fun _ _ => Iff.rfl) (Nat.le_refl _)
    intro u hu
    rw [giveUp_cow hput]
    refine or_iff_left ?_
    intro hadded
    have hd := ((hb.held d n hn).apart u hadded).2
    -- two nodes have the lock only to read
    have hne : m ≠ n := hother.resolve_left (fun h => h (hu.symm.trans hd))
    rw [hu.symm.trans hd] at hm
    cases hlock : s.lock d with
    | free =>
        rw [hlock] at hn
        cases hn
    | r ns =>
        rw [hb.read d ns hlock n] at hadded
        cases hadded
    | w k =>
        rw [hlock] at hn hm
        exact hne ((List.mem_singleton.mp hm).trans (List.mem_singleton.mp hn).symm)
  · intro d' m hm
    by_cases hself : d' = d ∧ m = n
    · rw [hself.1, hself.2]
      exact hfree
    · have hother := not_and_or.mp hself
      rw [giveUp_other hother]
      exact hb.free d' m fun h => hm (giveUp_owners.mpr ⟨h, hother⟩)
  · intro d' ns hlock m
    by_cases hself : d' = d ∧ m = n
    · rw [hself.1, hself.2]
      exact hfree.added
    · rw [giveUp_other (not_and_or.mp hself)]
      by_cases hd : d' = d
      · subst hd
        rw [giveUp_lock] at hlock
        obtain ⟨ns', hns'⟩ := VSLock.without_r hlock
        exact hb.read d' ns' hns' m
      · rw [giveUp_lock_other hd] at hlock
        exact hb.read d' ns hlock m
  · intro d' m
    by_cases hself : d' = d ∧ m = n
    · rw [hself.1, hself.2, hfree.added]
      exact Nat.zero_le _
    · rw [giveUp_other (not_and_or.mp hself)]
      exact hb.room d' m
  · intro d'
    by_cases hd : d' = d
    · subst hd
      rw [giveUp_lock]
      exact VSLock.nodup_without (hb.once d')
    · rw [giveUp_lock_other hd]
      exact hb.once d'

end GiveUp

/-- What a lock of a group leaves of the others -/
structure OtherGroups (d : ℕ) (s t : CowState) : Prop where
  lock : ∀ d', d' ≠ d → t.lock d' = s.lock d'
  tabs : ∀ d', d' ≠ d → t.tabs d' = s.tabs d'

theorem OtherGroups.trans {r : CowState} (h : OtherGroups d s t) (h' : OtherGroups d t r) : OtherGroups d s r :=
  ⟨fun d' hd => (h'.lock d' hd).trans (h.lock d' hd), fun d' hd => (h'.tabs d' hd).trans (h.tabs d' hd)⟩

theorem giveUp_otherGroups : OtherGroups d s (s.giveUp env d n) :=
  ⟨fun _ hd => giveUp_lock_other hd, fun _ hd => funext fun _ => giveUp_other (.inl hd)⟩

/-- Some of the nodes that have a lock give it up. -/
theorem giveUps_kept (ms : List ℕ) (hb : Book pVV s) (hnodup : ms.Nodup)
    (hms : ∀ m ∈ ms, m ∈ (s.lock d).owners ∧ ((s.tabs d m).vdPCOW = [] ∨ env.putHashCOW d m = true)) :
    ∃ t, ms.foldl (fun s m => s.giveUp env d m) s = t ∧ Book pVV t ∧ SameUnits pVV s t ∧ OtherGroups d s t ∧
      ∀ m, m ∈ (t.lock d).owners ↔ m ∈ (s.lock d).owners ∧ m ∉ ms := by
  induction ms generalizing s with
  | nil =>
      exact ⟨s, rfl, hb, .refl s, ⟨fun _ _ => rfl, fun _ _ => rfl⟩,
        fun m => (and_iff_left List.not_mem_nil).symm⟩
  | cons k ms ih =>
      obtain ⟨hnot, hnodup⟩ := List.nodup_cons.mp hnodup
      obtain ⟨hk, hput⟩ := hms k List.mem_cons_self
      obtain ⟨t, ht, hbook, hsame, hothers, howners⟩ := ih (giveUp_book hput hb hk) hnodup (by
        intro m hm
        obtain ⟨hown, hmput⟩ := hms m (List.mem_cons_of_mem k hm)
        have hne : d ≠ d ∨ m ≠ k := .inr fun heq => hnot (heq ▸ hm)
        rw [giveUp_other hne]
        exact ⟨giveUp_owners.mpr ⟨hown, hne⟩, hmput⟩)
      refine ⟨t, ht, hbook, (giveUp_same hput hb hk).trans hsame, giveUp_otherGroups.trans hothers, ?_⟩
      intro m
      rw [howners, giveUp_owners, List.mem_cons, not_or, and_assoc]
      exact and_congr_right fun _ => and_congr_left fun _ => or_iff_right fun h => h rfl

theorem init_tabs {l : VSLock} : ((s.vsDlgInit pVV d n).setLock d l).tabs d n =
    { s.tabs d n with
      vdHashListVS := (s.wrTbl.filter fun vs => d * VV_VS_DLG_SIZE ≤ vs ∧
        vs < d * VV_VS_DLG_SIZE + VV_VS_DLG_SIZE).foldl setHashVS (s.tabs d n).vdHashListVS
      vdDHashCOW := setHashCOW s.heap
        (s.cow.filter fun u => dlg2su pVV d ≤ u ∧ u < dlg2su pVV d + dlg2su pVV 1)
        (s.tabs d n).vdDHashCOW } := setTabs_self

/-- A node gets the lock of a group, beside those that have it. -/
theorem init_kept {l : VSLock} (hb : Book pVV s) (hn : n ∉ (s.lock d).owners)
    (hl : ∀ m, m ∈ l.owners ↔ m = n ∨ m ∈ (s.lock d).owners) (honce : l.owners.Nodup)
    (hread : (∃ ns, l = .r ns) → ∀ m, (s.tabs d m).vdPCOW = []) :
    Book pVV ((s.vsDlgInit pVV d n).setLock d l) ∧ SameUnits pVV s ((s.vsDlgInit pVV d n).setLock d l) ∧
      OtherGroups d s ((s.vsDlgInit pVV d n).setLock d l) := by
  have hfree := hb.free d n hn
  have hheld : TabsHeld pVV s.cow s.wrTbl ((s.vsDlgInit pVV d n).setLock d l).heap d
      (((s.vsDlgInit pVV d n).setLock d l).tabs d n) := by
    rw [init_tabs]
    exact hfree.init hb.stripes hb.heap hb.small
  have hnone : (((s.vsDlgInit pVV d n).setLock d l).tabs d n).vdPCOW = [] := by
    rw [init_tabs]
    exact hfree.added
  have hroom : (((s.vsDlgInit pVV d n).setLock d l).tabs d n).vdSCOW = (s.tabs d n).vdSCOW := by
    rw [init_tabs]
  have hother : ∀ d' m, d' ≠ d ∨ m ≠ n →
      ((s.vsDlgInit pVV d n).setLock d l).tabs d' m = s.tabs d' m := fun _ _ h => setTabs_other h
  have hlock : ((s.vsDlgInit pVV d n).setLock d l).lock d = l := Function.update_self ..
  have hlocks : ∀ d', d' ≠ d → ((s.vsDlgInit pVV d n).setLock d l).lock d' = s.lock d' :=
    fun _ hd => Function.update_of_ne hd ..
  have hcow : ((s.vsDlgInit pVV d n).setLock d l).cow = s.cow := rfl
  have hsegs : ((s.vsDlgInit pVV d n).setLock d l).segs = s.segs := rfl
  have hvol : ((s.vsDlgInit pVV d n).setLock d l).vol = s.vol := rfl
  have htbl : ((s.vsDlgInit pVV d n).setLock d l).wrTbl = s.wrTbl := rfl
  have hheap : s.heap ≤ ((s.vsDlgInit pVV d n).setLock d l).heap := Nat.le_add_right _ _
  generalize (s.vsDlgInit pVV d n).setLock d l = t at *
  have hadded : ∀ d' m, (t.tabs d' m).vdPCOW = (s.tabs d' m).vdPCOW := by
    intro d' m
    by_cases h : d' = d ∧ m = n
    · rw [h.1, h.2, hnone, hfree.added]
    · rw [hother d' m (not_and_or.mp h)]
  have howners : ∀ d' m, m ∈ (t.lock d').owners ↔ (d' = d ∧ m = n) ∨ m ∈ (s.lock d').owners := by
    intro d' m
    by_cases hd : d' = d
    · subst hd
      rw [hlock, hl, and_iff_right rfl]
    · rw [hlocks d' hd]
      exact (or_iff_right fun h => hd h.1).symm
  refine ⟨⟨hb.stripes, Nat.lt_of_lt_of_le hb.heap hheap, ?_, ?_, ?_, ?_, ?_, ?_, ?_⟩, ⟨?_, htbl, hsegs, hvol⟩,
    ⟨hlocks, ?_⟩⟩
  · rw [hcow]
    exact hb.small
  · intro d' m u hu
    rw [hadded] at hu
    exact hb.added d' m u hu
  · intro d' m hm
    by_cases h : d' = d ∧ m = n
    · rw [h.1, h.2, hcow, htbl]
      exact hheld
    · rw [hother d' m (not_and_or.mp h), hcow, htbl]
      have hold := ((howners d' m).mp hm).resolve_left h
      exact (hb.held d' m hold).frame (fun _ _ => Iff.rfl) (fun _ _ => Iff.rfl) hheap
  · intro d' m hm
    have hnot := not_or.mp (mt (howners d' m).mpr hm)
    rw [hother d' m (not_and_or.mp hnot.1)]
    exact (hb.free d' m hnot.2).mono hheap
  · intro d' ns hr m
    rw [hadded]
    by_cases hd : d' = d
    · subst hd
      exact hread ⟨ns, hlock.symm.trans hr⟩ m
    · rw [hlocks d' hd] at hr
      exact hb.read d' ns hr m
  · intro d' m
    rw [hadded]
    by_cases h : d' = d ∧ m = n
    · rw [h.1, h.2, hroom]
      exact hb.room d n
    · rw [hother d' m (not_and_or.mp h)]
      exact hb.room d' m
  · intro d'
    by_cases hd : d' = d
    · rw [hd, hlock]
      exact honce
    · rw [hlocks d' hd]
      exact hb.once d'
  · intro u
    unfold CowState.Recorded
    rw [hcow]
    refine or_congr_right ?_
    constructor
    · rintro ⟨m, hm, hu⟩
      rw [hadded] at hu
      rcases (howners _ m).mp hm with h | hm
      · rw [h.1, h.2, hfree.added] at hu
        cases hu
      · exact ⟨m, hm, hu⟩
    · rintro ⟨m, hm, hu⟩
      refine ⟨m, (howners _ m).mpr (.inr hm), ?_⟩
      rw [hadded]
      exact hu
  · intro d' hd
    funext m
    exact hother d' m (.inl hd)

theorem Book.free_added (hb : Book pVV s) (hlock : s.lock d = .free) (m : ℕ) : (s.tabs d m).vdPCOW = [] := by
  refine (hb.free d m ?_).added
  rw [hlock]
  exact List.not_mem_nil

/-- The lock to write: no other node has it then. -/
theorem vLockW_kept (hb : Book pVV s) (hhand : HandedOver s env d n) :
    ∃ t, s.vLockW pVV env d n = t ∧ Book pVV t ∧ SameUnits pVV s t ∧ OtherGroups d s t ∧ t.lock d = .w n := by
  unfold CowState.vLockW
  by_cases hmine : s.lock d = .w n
  · rw [if_pos hmine]
    exact ⟨s, rfl, hb, .refl s, ⟨fun _ _ => rfl, fun _ _ => rfl⟩, hmine⟩
  · rw [if_neg hmine]
    -- the node itself may have had the lock to read
    have hall : ∀ m ∈ (s.lock d).owners, m ∈ (s.lock d).owners ∧
        ((s.tabs d m).vdPCOW = [] ∨ env.putHashCOW d m = true) := by
      intro m hm
      refine ⟨hm, ?_⟩
      by_cases hself : m = n
      · subst hself
        cases hlock : s.lock d with
        | free =>
            rw [hlock] at hm
            cases hm
        | r ns => exact .inl (hb.read d ns hlock m)
        | w k =>
            rw [hlock] at hm hmine
            exact absurd (congrArg VSLock.w (List.mem_singleton.mp hm).symm) hmine
      · exact hhand m hm hself
    obtain ⟨t, ht, hbook, hsame, hothers, howners⟩ := giveUps_kept _ hb (hb.once d) hall
    have hnone : ∀ m, m ∉ (t.lock d).owners := by
      intro m hm
      obtain ⟨hin, hout⟩ := (howners m).mp hm
      exact hout hin
    obtain ⟨hbook', hsame', hothers'⟩ := init_kept (l := .w n) hbook (hnone n) (by
      intro m
      change m ∈ [n] ↔ m = n ∨ _
      rw [List.mem_singleton]
      exact (or_iff_left (hnone m)).symm) (List.nodup_singleton n) (by
      rintro ⟨ns, hns⟩
      cases hns)
    rw [ht]
    exact ⟨_, rfl, hbook', hsame.trans hsame', hothers.trans hothers', Function.update_self ..⟩

/-- The lock to read: other nodes may have it to read then, too. -/
theorem vLockR_kept (hb : Book pVV s) (hhand : HandedOver s env d n) :
    ∃ t, s.vLockR pVV env d n = t ∧ Book pVV t ∧ SameUnits pVV s t := by
  unfold CowState.vLockR
  by_cases hmine : n ∈ (s.lock d).owners
  · rw [if_pos hmine]
    exact ⟨s, rfl, hb, .refl s⟩
  · rw [if_neg hmine]
    cases hlock : s.lock d with
    | free =>
        obtain ⟨hbook, hsame, -⟩ := init_kept (l := .r [n]) hb hmine (by
          intro m
          rw [hlock]
          change m ∈ [n] ↔ m = n ∨ m ∈ []
          rw [List.mem_singleton, List.mem_nil_iff, or_false]) (List.nodup_singleton n)
          fun _ m => hb.free_added hlock m
        exact ⟨_, rfl, hbook, hsame⟩
    | r ns =>
        have honce := hb.once d
        rw [hlock] at hmine honce
        obtain ⟨hbook, hsame, -⟩ := init_kept (l := .r (n :: ns)) (d := d) (n := n) hb
          (by rw [hlock]; exact hmine) (by
          intro m
          rw [hlock]
          exact List.mem_cons) (List.nodup_cons.mpr ⟨hmine, honce⟩) fun _ m => hb.read d ns hlock m
        exact ⟨_, rfl, hbook, hsame⟩
    | w k =>
        have hk : k ∈ (s.lock d).owners := by
          rw [hlock]
          exact List.mem_singleton_self k
        have hput := hhand k hk fun heq => hmine (heq ▸ hk)
        have hfree : (s.giveUp env d k).lock d = .free := by
          rw [giveUp_lock, hlock]
          exact if_pos rfl
        have hbook₁ := giveUp_book hput hb hk
        obtain ⟨hbook, hsame, -⟩ := init_kept (l := .r [n]) (n := n) hbook₁
          (by rw [hfree]; exact List.not_mem_nil) (by
          intro m
          rw [hfree]
          change m ∈ [n] ↔ m = n ∨ m ∈ []
          rw [List.mem_singleton, List.mem_nil_iff, or_false]) (List.nodup_singleton n)
          fun _ m => hbook₁.free_added hfree m
        exact ⟨_, rfl, hbook, (giveUp_same hput hb hk).trans hsame⟩

/-! ### Segments and marks -/

theorem Book.held_of_w (hb : Book pVV s) (hlock : s.lock d = .w n) :
    TabsHeld pVV s.cow s.wrTbl s.heap d (s.tabs d n) := by
  refine hb.held d n ?_
  rw [hlock]
  exact List.mem_singleton_self n

/-- What the writer of a group has changes. -/
theorem Book.change {p : VSDlgTabs} (hb : Book pVV s) (hlock : s.lock d = .w n) (hlocks : t.lock = s.lock)
    (htabs : t.tabs = (s.setTabs d n p).tabs) (hcow : t.cow = s.cow)
    (htbl : ∀ vs, vs2dlg vs ≠ d → (vs ∈ t.wrTbl ↔ vs ∈ s.wrTbl)) (hheap : s.heap ≤ t.heap)
    (hheld : TabsHeld pVV s.cow t.wrTbl t.heap d p) (hsmall : ∀ u ∈ p.vdPCOW, u < 2 ^ 64)
    (hroom : p.vdPCOW.length ≤ p.vdSCOW) : Book pVV t := by
  have hself : t.tabs d n = p := by
    rw [htabs]
    exact setTabs_self
  have hother : ∀ d' m, ¬(d' = d ∧ m = n) → t.tabs d' m = s.tabs d' m := by
    intro d' m h
    rw [htabs]
    exact setTabs_other (not_and_or.mp h)
  have hwriter : ∀ m, m ∈ (s.lock d).owners → m = n := by
    intro m hm
    rw [hlock] at hm
    exact List.mem_singleton.mp hm
  refine ⟨hb.stripes, Nat.lt_of_lt_of_le hb.heap hheap, ?_, ?_, ?_, ?_, ?_, ?_, ?_⟩
  · rw [hcow]
    exact hb.small
  · intro d' m u hu
    by_cases h : d' = d ∧ m = n
    · rw [h.1, h.2, hself] at hu
      exact hsmall u hu
    · rw [hother d' m h] at hu
      exact hb.added d' m u hu
  · intro d' m hm
    rw [hlocks] at hm
    rw [hcow]
    by_cases hd : d' = d
    · rw [hd] at hm ⊢
      rw [hwriter m hm, hself]
      exact hheld
    · rw [hother d' m fun h => hd h.1]
      exact (hb.held d' m hm).frame (fun _ _ => Iff.rfl) (fun vs hvs => htbl vs (hvs ▸ hd)) hheap
  · intro d' m hm
    rw [hlocks] at hm
    have h : ¬(d' = d ∧ m = n) := by
      rintro ⟨rfl, rfl⟩
      rw [hlock] at hm
      exact hm (List.mem_singleton_self m)
    rw [hother d' m h]
    exact (hb.free d' m hm).mono hheap
  · intro d' ns hr m
    rw [hlocks] at hr
    have h : ¬(d' = d ∧ m = n) := by
      rintro ⟨rfl, -⟩
      rw [hlock] at hr
      cases hr
    rw [hother d' m h]
    exact hb.read d' ns hr m
  · intro d' m
    by_cases h : d' = d ∧ m = n
    · rw [h.1, h.2, hself]
      exact hroom
    · rw [hother d' m h]
      exact hb.room d' m
  · rw [hlocks]
    exact hb.once

/-- The writer of a group has its units in the database or in its array. -/
theorem recorded_w (hlock : s.lock d = .w n) (hu : unitDlg pVV u = d) :
    s.Recorded pVV u ↔ u ∈ s.cow ∨ u ∈ (s.tabs d n).vdPCOW := by
  unfold CowState.Recorded
  rw [hu, hlock]
  refine or_congr_right ?_
  constructor
  · rintro ⟨m, hm, hmem⟩
    rw [List.mem_singleton.mp hm] at hmem
    exact hmem
  · exact fun hmem => ⟨n, List.mem_singleton_self n, hmem⟩

section Alloc
variable {vs : ℕ} (hb : Book pVV s) (hlock : s.lock (vs2dlg vs) = .w n)
include hb hlock

theorem any_groups : (s.tabs (vs2dlg vs) n).vdHashListVS.any (·.1 = vs) = true ↔ vs ∈ s.wrTbl := by
  have hmem : vs ∈ (s.tabs (vs2dlg vs) n).vdHashListVS.map (·.1) ↔ vs ∈ s.wrTbl :=
    ((hb.held_of_w hlock).groups vs).trans (and_iff_left rfl)
  rw [← hmem, List.any_eq_true, List.mem_map]
  exact exists_congr fun p => and_congr_right fun _ => decide_eq_true_iff

theorem allocVS_there (hvs : vs ∈ s.wrTbl) : s.allocVS env n vs = (true, s) :=
  if_pos ((any_groups hb hlock).mpr hvs)

theorem allocVS_none (hvs : vs ∉ s.wrTbl) (hno : env.vsAlloc vs = false) : s.allocVS env n vs = (false, s) := by
  unfold CowState.allocVS
  rw [if_neg (mt (any_groups hb hlock).mp hvs), if_pos hno]

theorem allocVS_new (hvs : vs ∉ s.wrTbl) (hok : env.vsAlloc vs = true) (hdb : env.dbAllocVS vs = true) :
    ∃ t, s.allocVS env n vs = (true, t) ∧ Book pVV t ∧ t.lock = s.lock ∧ OtherGroups (vs2dlg vs) s t ∧
      (∀ u, t.Recorded pVV u ↔ s.Recorded pVV u) ∧
      t.wrTbl = s.wrTbl ++ [vs] ∧ t.segs = s.segs ∧ t.vol = s.vol := by
  have hheld := hb.held_of_w hlock
  obtain ⟨p, hp⟩ : ∃ p : VSDlgTabs, p = { s.tabs (vs2dlg vs) n with
    vdHashListVS := (s.tabs (vs2dlg vs) n).vdHashListVS ++ [(vs, true)] } := ⟨_, rfl⟩
  have halloc : s.allocVS env n vs =
      (true, { s.setTabs (vs2dlg vs) n p with wrTbl := s.wrTbl ++ [vs] }) := by
    unfold CowState.allocVS
    rw [if_neg (mt (any_groups hb hlock).mp hvs), if_neg (by rw [hok]; exact Bool.noConfusion), hdb, if_pos rfl, hp]
  have hadded : p.vdPCOW = (s.tabs (vs2dlg vs) n).vdPCOW := by rw [hp]
  refine ⟨_, halloc, hb.change (p := p) hlock rfl rfl rfl ?_ (Nat.le_refl _) ?_ ?_ ?_, rfl,
    ⟨fun _ _ => rfl, ?_⟩, ?_, rfl, rfl, rfl⟩
  · intro v hv
    rw [List.mem_append, List.mem_singleton]
    refine or_iff_left ?_
    rintro rfl
    exact hv rfl
  · rw [hp]
    refine ⟨hheld.units, ?_, ?_, hheld.nodup, hheld.apart⟩
    · intro v
      change v ∈ ((s.tabs (vs2dlg vs) n).vdHashListVS ++ [(vs, true)]).map (·.1) ↔ v ∈ s.wrTbl ++ [vs] ∧ _
      rw [List.map_append, List.mem_append, hheld.groups, List.map_singleton, List.mem_singleton, List.mem_append,
        List.mem_singleton, or_and_right]
      refine or_congr_right ?_
      constructor
      · rintro rfl
        exact ⟨rfl, rfl⟩
      · exact fun h => h.1
    · intro q hq
      rcases List.mem_append.mp hq with hq | hq
      · exact hheld.defined q hq
      · rw [List.mem_singleton.mp hq]
  · rw [hadded]
    exact hb.added _ n
  · rw [hp]
    exact hb.room _ n
  · intro d' hd
    funext m
    exact setTabs_other (.inl hd)
  · intro u
    have htabs : ∀ d' m, ((s.setTabs (vs2dlg vs) n p).tabs d' m).vdPCOW = (s.tabs d' m).vdPCOW := by
      intro d' m
      by_cases h : d' = vs2dlg vs ∧ m = n
      · rw [h.1, h.2, setTabs_self, hadded]
      · rw [setTabs_other (not_and_or.mp h)]
    unfold CowState.Recorded
    refine or_congr_right (exists_congr fun m => and_congr_right fun _ => ?_)
    change u ∈ ((s.setTabs (vs2dlg vs) n p).tabs _ m).vdPCOW ↔ _
    rw [htabs]

end Alloc

/-- The array grows before it is full. -/
theorem addCOW_ok {p : VSDlgTabs} (hroom : p.vdPCOW.length ≤ p.vdSCOW) : ∃ k, p.vdPCOW.length + 1 ≤ k ∧
    p.addCOW u = .ok { p with
      vdPCOW := p.vdPCOW ++ [u]
      vdSCOW := k } := by
  obtain ⟨k, hk⟩ : ∃ k, k = if p.vdSCOW = 0 then 1
    else if p.vdPCOW.length = p.vdSCOW then p.vdSCOW * 2 else p.vdSCOW := ⟨_, rfl⟩
  have hlt : p.vdPCOW.length < k := by
    split_ifs at hk
    all_goals omega
  refine ⟨k, hlt, ?_⟩
  unfold VSDlgTabs.addCOW
  dsimp only
  rw [← hk, if_pos hlt]

/-- What a mark leaves, and that it records the unit -/
structure Marked (pVV : VV) (d u : ℕ) (s t : CowState) : Prop where
  book : Book pVV t
  lock : t.lock = s.lock
  others : OtherGroups d s t
  recorded : ∀ v, t.Recorded pVV v ↔ s.Recorded pVV v ∨ v = u
  wrTbl : t.wrTbl = s.wrTbl
  segs : t.segs = s.segs
  vol : t.vol = s.vol

section Mark
variable (hb : Book pVV s) (hlock : s.lock d = .w n) (hu : unitDlg pVV u = d) (hsmall : u < 2 ^ 64)
include hb hlock hu hsmall

/-- A unit that is recorded is found, and is not marked again. -/
theorem markUnit_there (hrec : s.Recorded pVV u) :
    ∃ t, s.markUnit d n u = .ok (false, t) ∧ Marked pVV d u s t := by
  obtain ⟨hfound, hheld⟩ := (hb.held_of_w hlock).get hsmall hu
  have hsome := hfound.mpr ((recorded_w hlock hu).mp hrec)
  obtain ⟨p, hp⟩ : ∃ p : VSDlgTabs, p = { s.tabs d n with
    vdDHashCOW := ((s.tabs d n).vdDHashCOW.get (unitKey u)).2 } := ⟨_, rfl⟩
  have hmark : s.markUnit d n u = .ok (false, s.setTabs d n p) := by
    unfold CowState.markUnit
    dsimp only
    rw [if_pos hsome, hp]
  rw [← hp] at hheld
  have hadded : ∀ d' m, ((s.setTabs d n p).tabs d' m).vdPCOW = (s.tabs d' m).vdPCOW := by
    intro d' m
    by_cases h : d' = d ∧ m = n
    · rw [h.1, h.2, setTabs_self, hp]
    · rw [setTabs_other (not_and_or.mp h)]
  refine ⟨_, hmark, ?_, rfl, ⟨fun _ _ => rfl, ?_⟩, ?_, rfl, rfl, rfl⟩
  · refine hb.change hlock rfl rfl rfl (fun _ _ => Iff.rfl) (Nat.le_refl _) hheld ?_ ?_
    · rw [hp]
      exact hb.added d n
    · rw [hp]
      exact hb.room d n
  · intro d' hd
    funext m
    exact setTabs_other (.inl hd)
  · intro v
    have hsame : (s.setTabs d n p).Recorded pVV v ↔ s.Recorded pVV v := by
      unfold CowState.Recorded
      refine or_congr_right (exists_congr fun m => and_congr_right fun _ => ?_)
      rw [hadded]
    rw [hsame]
    refine ⟨.inl, ?_⟩
    rintro (hv | rfl)
    · exact hv
    · exact hrec

/-- A unit that is not recorded is put into the hash and the array. -/
theorem markUnit_new (hrec : ¬s.Recorded pVV u) :
    ∃ t, s.markUnit d n u = .ok (true, t) ∧ Marked pVV d u s t := by
  have hold := hb.held_of_w hlock
  obtain ⟨hfound, hheld⟩ := hold.get hsmall hu
  have hno : ¬((s.tabs d n).vdDHashCOW.get (unitKey u)).1.isSome = true :=
    fun h => hrec ((recorded_w hlock hu).mpr (hfound.mp h))
  have hout : u ∉ s.cow ∧ u ∉ (s.tabs d n).vdPCOW :=
    not_or.mp fun h => hrec ((recorded_w hlock hu).mpr h)
  obtain ⟨ns, hnumbers, hlt, hmem⟩ := hheld.units
  have hput := hnumbers.put (unitKey u) () hb.heap
  obtain ⟨k, hk, hadd⟩ := addCOW_ok (p := { s.tabs d n with vdDHashCOW :=
    (((s.tabs d n).vdDHashCOW.get (unitKey u)).2.put (some s.heap) (unitKey u) ()).2 }) (u := u) (hb.room d n)
  obtain ⟨p, hp⟩ : ∃ p : VSDlgTabs, p = { s.tabs d n with
    vdDHashCOW := (((s.tabs d n).vdDHashCOW.get (unitKey u)).2.put (some s.heap) (unitKey u) ()).2
    vdPCOW := (s.tabs d n).vdPCOW ++ [u]
    vdSCOW := k } := ⟨_, rfl⟩
  have hmark : s.markUnit d n u = .ok (true, { s.setTabs d n p with heap := s.heap + 1 }) := by
    unfold CowState.markUnit
    dsimp only
    rw [if_neg hno, hadd, hp]
    rfl
  have hself : (s.setTabs d n p).tabs d n = p := setTabs_self
  have hother : ∀ d' m, ¬(d' = d ∧ m = n) → (s.setTabs d n p).tabs d' m = s.tabs d' m :=
    fun d' m h => setTabs_other (not_and_or.mp h)
  have hadded : p.vdPCOW = (s.tabs d n).vdPCOW ++ [u] := by rw [hp]
  have hheld' : TabsHeld pVV s.cow s.wrTbl (s.heap + 1) d p := by
    rw [hp]
    refine ⟨⟨ns ++ [u], ?_, ?_, ?_⟩, hold.groups, hold.defined, ?_, ?_⟩
    · rw [List.map_append]
      exact hput
    · intro v hv
      rcases List.mem_append.mp hv with hv | hv
      · exact hlt v hv
      · rw [List.mem_singleton.mp hv]
        exact hsmall
    · intro v
      change v ∈ ns ++ [u] ↔ unitDlg pVV v = d ∧ (v ∈ s.cow ∨ v ∈ (s.tabs d n).vdPCOW ++ [u])
      rw [List.mem_append, hmem, List.mem_append, List.mem_singleton]
      constructor
      · rintro (⟨hd, hv⟩ | rfl)
        · exact ⟨hd, hv.imp_right .inl⟩
        · exact ⟨hu, .inr (.inr rfl)⟩
      · rintro ⟨hd, hv | hv | hv⟩
        · exact .inl ⟨hd, .inl hv⟩
        · exact .inl ⟨hd, .inr hv⟩
        · exact .inr hv
    · exact hold.nodup.append (List.nodup_singleton u) (List.disjoint_singleton.mpr hout.2)
    · intro v hv
      rcases List.mem_append.mp hv with hv | hv
      · exact hold.apart v hv
      · rw [List.mem_singleton.mp hv]
        exact ⟨hout.1, hu⟩
  refine ⟨_, hmark, ?_, rfl, ⟨fun _ _ => rfl, ?_⟩, ?_, rfl, rfl, rfl⟩
  · refine hb.change (p := p) hlock rfl rfl rfl (fun _ _ => Iff.rfl) (Nat.le_succ _) hheld' ?_ ?_
    · intro v hv
      rw [hadded] at hv
      rcases List.mem_append.mp hv with hv | hv
      · exact hb.added d n v hv
      · rw [List.mem_singleton.mp hv]
        exact hsmall
    · rw [hadded, List.length_append, hp]
      exact hk
  · intro d' hd
    funext m
    exact setTabs_other (.inl hd)
  · intro v
    by_cases hd : unitDlg pVV v = d
    · have hnew : ({ s.setTabs d n p with heap := s.heap + 1 } : CowState).Recorded pVV v ↔
          v ∈ s.cow ∨ v ∈ ((s.setTabs d n p).tabs d n).vdPCOW := recorded_w hlock hd
      rw [hnew, hself, hadded, recorded_w hlock hd, List.mem_append, List.mem_singleton, or_assoc]
    · have hne : v ≠ u := fun heq => hd (heq ▸ hu)
      rw [or_iff_left hne]
      unfold CowState.Recorded
      refine or_congr_right (exists_congr fun m => and_congr_right fun _ => ?_)
      change v ∈ ((s.setTabs d n p).tabs (unitDlg pVV v) m).vdPCOW ↔ _
      rw [hother _ m fun h => hd h.1]

end Mark

end Locks

end PaxosSolutions.Cow
