import PaxosSolutions.Session.Accounting

/-!
# How long out-of-band data is kept

Validated entries stand in `o_Lnk` in the order of their numbers. A validation
looks for its place from the end, which keeps the order but gives up after
`PAXOS_MAX` entries with the same or a later number, and the collection stops
at the first entry that a peer may still pull.
-/
namespace PaxosSolutions
open Lib NWGadget

/-- The numbers of the validated entries, in the order of `o_Lnk`. -/
def OutOfBandCtrl.numbers (c : OutOfBandCtrl) : List UInt32 :=
  (c.oLnk.filter (·.oBValidate)).map (·.oSeq)

def OutOfBandCtrl.Ordered (c : OutOfBandCtrl) : Prop :=
  c.numbers.Pairwise fun a b => cmp32 a b ≤ 0

structure OutOfBandCtrl.Retained (c : OutOfBandCtrl) : Prop where
  nodup : (c.oLnk.map (·.oId)).Nodup
  ordered : c.Ordered

/-- The numbers of the validated entries other than `i`. -/
def OutOfBandCtrl.others (i : OutOfBandId) (c : OutOfBandCtrl) : List UInt32 :=
  (c.oLnk.filter fun x => x.oBValidate && x.oId ≠ i).map (·.oSeq)

/-- The entry `i` finds its place under `seq`: the numbers are less than half
their range apart, and no more than `PAXOS_MAX` of them are `seq` or later. -/
structure OutOfBandCtrl.Room (seq : UInt32) (i : OutOfBandId) (c : OutOfBandCtrl) : Prop where
  near : ∃ base, ∀ a ∈ seq :: c.others i, (a - base).toNat < 2 ^ 31
  few : (c.others i).countP (fun a => 0 ≤ cmp32 a seq) ≤ paxosMax

/-- Every entry that moves finds its place. -/
def Retainable (c : OutOfBandCtrl) : OutOfBandOp → Prop
  | .validate seq i =>
      ∀ x, c.get i = some x → ¬ (x.oBValidate = true ∧ x.oSeq = seq) → c.Room seq i
  | .pulled seq m _ =>
      (∀ x, c.get m.hId.outOfBand = some x → ¬ (x.oBValidate = true ∧ x.oSeq = seq)) →
        c.Room seq m.hId.outOfBand
  | _ => True

/-! ### The search for a place -/

section Place
variable {x : OutOfBand} {cnt : ℕ} {ps l : List OutOfBand}

/-- From the end: every validated entry is followed by earlier ones. -/
def Descending (l : List OutOfBand) : Prop :=
  l.Pairwise fun a b => a.oBValidate = true → b.oBValidate = true → cmp32 b.oSeq a.oSeq ≤ 0

theorem place_descending (base : UInt32) (hx : x.oBValidate = true) (hps : Descending ps)
    (hnear : ∀ a ∈ x :: ps, a.oBValidate = true → (a.oSeq - base).toNat < 2 ^ 31)
    (h : outOfBandPlace x cnt ps = .ok l) : Descending l := by
  induction ps generalizing cnt l with
  | nil =>
      unfold outOfBandPlace at h
      split at h
      · cases h
      · cases h
        exact List.pairwise_singleton _ _
  | cons p ps ih =>
      obtain ⟨hp, hps⟩ := List.pairwise_cons.mp hps
      have hnx := hnear x (by simp) hx
      -- `p` is passed when it is not validated or not before `x`
      have hpass {n : ℕ} (hle : p.oBValidate = true → 0 ≤ cmp32 p.oSeq x.oSeq)
          (h : (outOfBandPlace x n ps).map (p :: ·) = .ok l) : Descending l := by
        cases hr : outOfBandPlace x n ps with
        | error e =>
            rw [hr] at h
            cases h
        | ok r =>
            rw [hr] at h
            cases h
            have hnear' : ∀ a ∈ x :: ps, a.oBValidate = true → (a.oSeq - base).toNat < 2 ^ 31 := by
              intro a ha
              apply hnear a
              rcases List.mem_cons.mp ha with rfl | ha <;> simp [*]
            apply List.pairwise_cons.mpr
            constructor
            · intro a ha hpv hav
              rcases List.mem_cons.mp ((place_perm hr).mem_iff.mp ha) with rfl | ha
              · have hnp := hnear p (by simp) hpv
                have hle := hle hpv
                rw [cmp32_eq_sub_base hnp hnx] at hle
                rw [cmp32_eq_sub_base hnx hnp]
                omega
              · exact hp a ha hpv hav
            · exact ih hps hnear' hr
      unfold outOfBandPlace at h
      split_ifs at h with hv hcnt hlt
      · exact hpass (by simp [hv]) h
      · cases h
        have hpv : p.oBValidate = true := by simpa using hv
        have hnp := hnear p (by simp) hpv
        rw [cmp32_eq_sub_base hnp hnx] at hlt
        apply List.pairwise_cons.mpr
        constructor
        · intro a ha _ hav
          have hna := hnear a (by simp_all) hav
          rw [cmp32_eq_sub_base hna hnx]
          rcases List.mem_cons.mp ha with rfl | ha
          · omega
          · have hap := hp a ha hpv hav
            rw [cmp32_eq_sub_base hna hnp] at hap
            omega
        · exact List.pairwise_cons.mpr ⟨hp, hps⟩
      · exact hpass (fun _ => by omega) h

/-- The search gives up only after `PAXOS_MAX` entries that are not before `x`. -/
theorem place_fault {e : OutOfBandFault} (h : outOfBandPlace x cnt ps = .error e) :
    paxosMax < cnt + ps.countP (fun p => p.oBValidate && 0 ≤ cmp32 p.oSeq x.oSeq) := by
  induction ps generalizing cnt with
  | nil =>
      unfold outOfBandPlace at h
      split at h
      · simpa
      · cases h
  | cons p ps ih =>
      have hpass {n : ℕ} (h : (outOfBandPlace x n ps).map (p :: ·) = .error e) :
          outOfBandPlace x n ps = .error e := by
        cases hr : outOfBandPlace x n ps with
        | error d =>
            rw [hr] at h
            cases h
            rfl
        | ok r =>
            rw [hr] at h
            cases h
      rw [List.countP_cons]
      unfold outOfBandPlace at h
      split_ifs at h with hv hcnt hlt
      · have := ih (hpass h)
        omega
      · omega
      · have := ih (hpass h)
        rw [if_pos (by simp_all)]
        omega

end Place

/-! ### What the other operations leave alone -/

/-- What the order of `o_Lnk` is about. -/
def OutOfBand.tag (x : OutOfBand) : OutOfBandId × Bool × UInt32 := (x.oId, x.oBValidate, x.oSeq)

section Tags
variable {c c' : OutOfBandCtrl} {i : OutOfBandId} {h : PaxosSessionHead}

def OutOfBandCtrl.tags (c : OutOfBandCtrl) : List (OutOfBandId × Bool × UInt32) :=
  c.oLnk.map OutOfBand.tag

theorem oId_eq_tags : c.oLnk.map (·.oId) = c.tags.map (·.1) := by
  simp [OutOfBandCtrl.tags, OutOfBand.tag]

theorem numbers_eq_tags : c.numbers = (c.tags.filter (·.2.1)).map (·.2.2) := by
  simp only [OutOfBandCtrl.numbers, OutOfBandCtrl.tags, List.filter_map, List.map_map]
  rfl

theorem others_eq_tags :
    c.others i = (c.tags.filter fun t => t.2.1 && t.1 ≠ i).map (·.2.2) := by
  simp only [OutOfBandCtrl.others, OutOfBandCtrl.tags, List.filter_map, List.map_map]
  rfl

theorem retained_of_tags (ht : c'.tags = c.tags) (hc : c.Retained) : c'.Retained := by
  constructor
  · rw [oId_eq_tags, ht, ← oId_eq_tags]
    exact hc.nodup
  · unfold OutOfBandCtrl.Ordered
    rw [numbers_eq_tags, ht, ← numbers_eq_tags]
    exact hc.ordered

theorem set_tags {f : OutOfBand → OutOfBand} (hf : ∀ x, (f x).tag = x.tag) :
    (c.set i f).tags = c.tags := by
  unfold OutOfBandCtrl.tags OutOfBandCtrl.set
  rw [List.map_map]
  apply List.map_congr_left
  intro x _
  simp only [Function.comp_apply]
  split
  · exact hf x
  · rfl

theorem makeRoom_tags {len : ℤ} {xs : List OutOfBand} :
    (outOfBandMakeRoom len i xs c).tags = c.tags := by
  induction xs generalizing c with
  | nil => rfl
  | cons x xs ih =>
      unfold outOfBandMakeRoom
      split_ifs
      · rfl
      · exact ih
      · split
        · exact ih
        · rw [ih]
          unfold OutOfBandCtrl.tags
          rw [evict_oLnk]
          exact set_tags fun _ => rfl

theorem cache_tags (h : outOfBandCache i h c = .ok c') : c'.tags = c.tags := by
  unfold outOfBandCache at h
  simp only at h
  split at h
  · cases h
    exact makeRoom_tags
  · cases h

theorem cache_fault {e : OutOfBandFault} (h : outOfBandCache i h c = .error e) :
    e = .assertMem := by
  unfold outOfBandCache at h
  simp only at h
  split at h
  · cases h
  · cases h
    rfl

theorem alloc_tags : (c.alloc i).tags = c.tags ++ [(i, false, 0)] := by
  simp [OutOfBandCtrl.tags, OutOfBandCtrl.alloc, OutOfBand.tag]

/-- An entry is new, and not validated, or is there. -/
def Enters (i : OutOfBandId) (c c' : OutOfBandCtrl) : Prop :=
  c'.tags = c.tags ∨ c.get i = none ∧ c'.tags = c.tags ++ [(i, false, 0)]

theorem Enters.retained (he : Enters i c c') (hc : c.Retained) : c'.Retained := by
  rcases he with ht | ⟨hi, ht⟩
  · exact retained_of_tags ht hc
  · have hne := OutOfBandCtrl.notMem_of_get hi
    constructor
    · rw [oId_eq_tags, ht, List.map_append, ← oId_eq_tags, List.nodup_append]
      refine ⟨hc.nodup, by simp, ?_⟩
      intro j hj k hk
      obtain ⟨y, hy, rfl⟩ := List.mem_map.mp hj
      rw [List.mem_singleton.mp hk]
      exact hne y hy
    · have hnum : c'.numbers = c.numbers := by
        rw [numbers_eq_tags, ht, numbers_eq_tags, List.filter_append]
        simp
      unfold OutOfBandCtrl.Ordered
      rw [hnum]
      exact hc.ordered

theorem Enters.others (he : Enters i c c') : c'.others i = c.others i := by
  rcases he with ht | ⟨-, ht⟩
  · rw [others_eq_tags, ht, others_eq_tags]
  · rw [others_eq_tags, ht, others_eq_tags, List.filter_append]
    simp

theorem push_enters {m : PaxosSessionHead} {now : ℤ} (h : outOfBandPush m now c = .ok c') :
    Enters m.hId.outOfBand c c' := by
  unfold outOfBandPush at h
  have ht := (cache_tags h).trans (set_tags fun _ => rfl)
  simp only [fit_hId] at ht
  cases hg : c.get m.hId.outOfBand with
  | none =>
      rw [hg] at ht
      exact .inr ⟨hg, ht.trans alloc_tags⟩
  | some x =>
      rw [hg] at ht
      simp only at ht
      left
      split at ht
      · rw [ht]
        exact set_tags fun _ => rfl
      · exact ht

theorem get_enters (h : outOfBandGet i c = .ok c') : Enters i c c' := by
  unfold outOfBandGet at h
  cases hg : c.get i with
  | none =>
      rw [hg] at h
      simp only at h
      split at h
      · cases h
        exact .inl rfl
      · have ht := (cache_tags h).trans (set_tags fun _ => rfl)
        exact .inr ⟨hg, ht.trans alloc_tags⟩
  | some x =>
      rw [hg] at h
      simp only at h
      left
      split at h
      · cases h
        rfl
      · cases h
        rfl
      · exact (cache_tags h).trans (set_tags fun _ => rfl)

end Tags

/-! ### Moving an entry -/

section Move
variable {c c' : OutOfBandCtrl} {x : OutOfBand} {seq : UInt32}

theorem ordered_iff {l : List OutOfBand} :
    ((l.filter (·.oBValidate)).map (·.oSeq)).Pairwise (fun a b => cmp32 a b ≤ 0) ↔
      Descending l.reverse := by
  unfold Descending
  rw [List.pairwise_reverse, List.pairwise_map, List.pairwise_filter]
  constructor
  · intro h
    exact h.imp fun h hb ha => h ha hb
  · intro h
    exact h.imp fun h ha hb => h hb ha

theorem oSeq_mem_others {i : OutOfBandId} {a : OutOfBand} (ha : a ∈ c.oLnk) (hv : a.oBValidate = true)
    (hi : a.oId ≠ i) : a.oSeq ∈ c.others i :=
  List.mem_map.mpr ⟨a, List.mem_filter.mpr ⟨ha, by simp [hv, hi]⟩, rfl⟩

theorem move_retained (hc : c.Retained) (hx : x ∈ c.oLnk)
    (hroom : ¬ (x.oBValidate = true ∧ x.oSeq = seq) → c.Room seq x.oId)
    (h : outOfBandMove seq x c = .ok c') : c'.Retained := by
  unfold outOfBandMove at h
  split_ifs at h with hsame
  · cases h
    exact hc
  · obtain ⟨base, hnear⟩ := (hroom hsame).near
    simp only at h
    cases hp : outOfBandPlace { x with oBValidate := true, oSeq := seq } 0
        (c.oLnk.filter fun y => y.oId ≠ x.oId).reverse with
    | error e =>
        rw [hp] at h
        cases h
    | ok l =>
        rw [hp] at h
        cases h
        have hperm : l.reverse.Perm ({ x with oBValidate := true, oSeq := seq } ::
            c.oLnk.filter fun y => y.oId ≠ x.oId) :=
          (l.reverse_perm.trans (place_perm hp)).trans ((List.reverse_perm _).cons _)
        have hids : (l.reverse.map (·.oId)).Perm (c.oLnk.map (·.oId)) :=
          (hperm.map (·.oId)).trans ((perm_cons_filter hc.nodup hx).map (·.oId)).symm
        have hrest : Descending (c.oLnk.filter fun y => y.oId ≠ x.oId).reverse := by
          rw [← ordered_iff]
          exact hc.ordered.sublist ((List.filter_sublist.filter _).map _)
        constructor
        · exact hids.nodup_iff.mpr hc.nodup
        · change ((l.reverse.filter _).map _).Pairwise _
          rw [ordered_iff, List.reverse_reverse]
          apply place_descending base rfl hrest _ hp
          intro a ha hav
          apply hnear
          rcases List.mem_cons.mp ha with rfl | ha
          · exact List.mem_cons_self
          · obtain ⟨ha, hi⟩ := List.mem_filter.mp (List.mem_reverse.mp ha)
            exact List.mem_cons_of_mem _ (oSeq_mem_others ha hav (by simpa using hi))

theorem move_room {e : OutOfBandFault}
    (hroom : ¬ (x.oBValidate = true ∧ x.oSeq = seq) → c.Room seq x.oId)
    (h : outOfBandMove seq x c = .error e) : False := by
  unfold outOfBandMove at h
  split_ifs at h with hsame
  simp only at h
  cases hp : outOfBandPlace { x with oBValidate := true, oSeq := seq } 0
      (c.oLnk.filter fun y => y.oId ≠ x.oId).reverse with
  | error d =>
      have hmany := place_fault hp
      have hfew := (hroom hsame).few
      have hcount : (c.others x.oId).countP (fun a => 0 ≤ cmp32 a seq) =
          (c.oLnk.filter fun y => y.oId ≠ x.oId).countP
            (fun p => p.oBValidate && 0 ≤ cmp32 p.oSeq seq) := by
        unfold OutOfBandCtrl.others
        rw [List.countP_map, List.countP_filter, List.countP_filter]
        apply List.countP_congr
        intro a _
        simp only [Function.comp_apply]
        grind
      rw [List.countP_reverse] at hmany
      simp only at hmany
      omega
  | ok l =>
      rw [hp] at h
      cases h

end Move

theorem remove_retained {c : OutOfBandCtrl} {x : OutOfBand} (hc : c.Retained) :
    (outOfBandRemove x c).Retained := by
  constructor
  · rw [remove_oLnk]
    exact hc.nodup.sublist (List.filter_sublist.map _)
  · unfold OutOfBandCtrl.Ordered OutOfBandCtrl.numbers
    rw [remove_oLnk]
    exact hc.ordered.sublist ((List.filter_sublist.filter _).map _)

theorem removes_retained {C : OutOfBand → Prop} {c c' : OutOfBandCtrl} (hc : c.Retained)
    (h : Relation.ReflTransGen (Removes C) c c') : c'.Retained := by
  induction h with
  | refl => exact hc
  | tail _ hr ih =>
      obtain ⟨x, -, -, rfl⟩ := hr
      exact remove_retained ih

/-- An entry that is gone was removed for `C`. -/
theorem removes_gone {C : OutOfBand → Prop} {c c' : OutOfBandCtrl} {x : OutOfBand}
    (hc : c.Retained) (h : Relation.ReflTransGen (Removes C) c c') (hx : x ∈ c.oLnk)
    (hx' : x ∉ c'.oLnk) : C x := by
  induction h with
  | refl => exact absurd hx hx'
  | @tail d c' hrow hr ih =>
      by_cases hd : x ∈ d.oLnk
      · obtain ⟨y, hy, hC, rfl⟩ := hr
        by_cases hxy : x.oId = y.oId
        · rw [eq_of_oId_eq (removes_retained hc hrow).nodup hd hy hxy]
          exact hC
        · exact absurd (mem_remove_of_ne hd hxy) hx'
      · exact ih hd

/-! ### Runs -/

section Steps
variable {c c' d : OutOfBandCtrl} {seq : UInt32} {i : OutOfBandId}

theorem validate_retained (hc : c.Retained) (hop : Retainable c (.validate seq i))
    (h : outOfBandValidate seq i c = .ok c') : c'.Retained := by
  unfold outOfBandValidate at h
  cases hg : c.get i with
  | none =>
      simp only [hg] at h
      cases h
      exact hc
  | some x =>
      simp only [hg] at h
      obtain ⟨hx, rfl⟩ := OutOfBandCtrl.mem_get hg
      exact move_retained hc hx (hop x hg) h

theorem validate_room {e : OutOfBandFault} (hop : Retainable c (.validate seq i))
    (h : outOfBandValidate seq i c = .error e) : False := by
  unfold outOfBandValidate at h
  cases hg : c.get i with
  | none =>
      simp only [hg] at h
      cases h
  | some x =>
      simp only [hg] at h
      obtain ⟨-, rfl⟩ := OutOfBandCtrl.mem_get hg
      exact move_room (hop x hg) h

/-- What was pulled is validated as it would have been without the pull. -/
theorem pulled_retainable {m : PaxosSessionHead} {now : ℤ} (hc : c.Retained)
    (hop : Retainable c (.pulled seq m now)) (h : outOfBandPush m now c = .ok d) :
    Retainable d (.validate seq m.hId.outOfBand) := by
  intro x hx hsame
  have he := push_enters h
  obtain ⟨hxd, hxi⟩ := OutOfBandCtrl.mem_get hx
  have hroom : c.Room seq m.hId.outOfBand := by
    apply hop
    intro y hy hysame
    obtain ⟨hyc, hyi⟩ := OutOfBandCtrl.mem_get hy
    have htag : y.tag ∈ d.tags := by
      have hyt : y.tag ∈ c.tags := List.mem_map.mpr ⟨y, hyc, rfl⟩
      rcases he with ht | ⟨-, ht⟩ <;> rw [ht]
      · exact hyt
      · exact List.mem_append_left _ hyt
    obtain ⟨z, hz, hzt⟩ := List.mem_map.mp htag
    simp only [OutOfBand.tag, Prod.mk.injEq] at hzt
    have hzx : z = x := eq_of_oId_eq (he.retained hc).nodup hz hxd
      (hzt.1.trans (hyi.trans hxi.symm))
    rw [← hzx, hzt.2.1, hzt.2.2] at hsame
    exact hsame hysame
  constructor
  · rw [he.others]
    exact hroom.near
  · rw [he.others]
    exact hroom.few

end Steps

/-- An operation keeps the order. -/
theorem step_retained {c c' : OutOfBandCtrl} {op : OutOfBandOp} (hc : c.Retained)
    (hop : Retainable c op) (h : outOfBandStep c op = .ok c') : c'.Retained := by
  cases op with
  | push m now => exact (push_enters h).retained hc
  | get i => exact (get_enters h).retained hc
  | validate seq i => exact validate_retained hc hop h
  | pulled seq m now =>
      unfold outOfBandStep outOfBandPulled at h
      cases hd : outOfBandPush m now c with
      | error e =>
          simp only [hd] at h
          cases h
      | ok d =>
          simp only [hd] at h
          exact validate_retained ((push_enters hd).retained hc) (pulled_retainable hc hop hd) h
  | collect now backSeq =>
      cases h
      exact removes_retained hc (collect_removes _ _ hc.nodup fun _ hx => hx)
  | purge s =>
      cases h
      exact removes_retained hc (purge_removes hc.nodup fun _ hx => hx)

/-- An operation whose entry finds its place does not stop on the search. -/
theorem step_fault {c : OutOfBandCtrl} {op : OutOfBandOp} {e : OutOfBandFault} (hc : c.Retained)
    (hop : Retainable c op) (h : outOfBandStep c op = .error e) : e = .assertMem := by
  cases op with
  | push m now =>
      unfold outOfBandStep outOfBandPush at h
      exact cache_fault h
  | get i =>
      unfold outOfBandStep outOfBandGet at h
      simp only at h
      split at h
      · split at h
        · cases h
        · cases h
        · exact cache_fault h
      · split at h
        · cases h
        · exact cache_fault h
  | validate seq i => exact (validate_room hop h).elim
  | pulled seq m now =>
      unfold outOfBandStep outOfBandPulled at h
      cases hd : outOfBandPush m now c with
      | error e =>
          simp only [hd] at h
          cases h
          unfold outOfBandPush at hd
          exact cache_fault hd
      | ok d =>
          simp only [hd] at h
          exact (validate_room (pulled_retainable hc hop hd) h).elim
  | collect now backSeq => cases h
  | purge s => cases h

/-- As long as every validated entry finds its place, `o_Lnk` keeps the order
of the numbers, the search for a place ends, and the collection takes nothing
that a peer may still pull. -/
theorem outOfBand_retained (limit retain : ℤ) (files : OutOfBandId → Option PaxosSessionHead)
    (ops : List OutOfBandOp)
    (hops : Along outOfBandStep Retainable (.start limit retain files) ops) :
    (∀ t, run outOfBandStep (.start limit retain files) ops = .ok t →
      t.Ordered ∧ ∀ now backSeq, ∀ x ∈ t.oLnk,
        x ∉ (outOfBandCollect now backSeq t.oLnk t).oLnk →
          x.oBValidate = true ∧ cmp32 x.oSeq backSeq < 0) ∧
      run outOfBandStep (.start limit retain files) ops ≠ .error .abortValidate := by
  have hstart : (OutOfBandCtrl.start limit retain files).Retained :=
    ⟨List.nodup_nil, List.Pairwise.nil⟩
  constructor
  · intro t ht
    have hc : t.Retained := run_invariant (fun _ _ _ => step_retained) hstart hops ht
    refine ⟨hc.ordered, ?_⟩
    intro now backSeq x hx hgone
    exact removes_gone hc (collect_removes _ _ hc.nodup fun _ hx => hx) hx hgone
  · intro h
    cases run_error (fun _ _ _ => step_retained) (fun _ _ _ => step_fault) hstart hops h

/-- Client `n` pushes its message 1 and has it validated under `seq`. -/
def validated (seq : UInt32) (n : ℕ) : List OutOfBandOp :=
  [pushed n 200, .validate seq { iPid := n, iSeq := 1 }]

theorem outOfBand_retained_one :
    Along outOfBandStep Retainable (.start 1000 0 fun _ => none) (validated 5 1) ∧
      run outOfBandStep (.start 1000 0 fun _ => none) (validated 5 1) ≠ .error .abortValidate := by
  have hops : Along outOfBandStep Retainable (.start 1000 0 fun _ => none) (validated 5 1) := by
    refine ⟨trivial, fun t ht => ⟨?_, fun _ _ => trivial⟩⟩
    intro x hx _
    cases ht
    refine ⟨⟨5, ?_⟩, Nat.zero_le _⟩
    intro a ha
    have ha : a = 5 := List.mem_singleton.mp ha
    rw [ha, UInt32.sub_self]
    exact Nat.two_pow_pos 31
  exact ⟨hops, (outOfBand_retained 1000 0 (fun _ => none) _ hops).2⟩

def OutOfBandOp.number : OutOfBandOp → Option UInt32
  | .validate seq _ | .pulled seq _ _ => some seq
  | _ => none

/-- Twelve messages validated under one number stop the acceptor. -/
theorem outOfBand_not_retained :
    ¬ ∀ (limit : ℤ) (ops : List OutOfBandOp),
      (∀ a ∈ ops.filterMap OutOfBandOp.number, ∀ b ∈ ops.filterMap OutOfBandOp.number,
        |cmp32 a b| ≤ paxosMax) →
      run outOfBandStep (.start limit 0 fun _ => none) ops ≠ .error .abortValidate := by
  intro h
  have hnum : ((List.range 12).flatMap (validated 10)).filterMap OutOfBandOp.number =
      List.replicate 12 10 := rfl
  apply h 10000 ((List.range 12).flatMap (validated 10))
  · rw [hnum]
    intro a ha b hb
    rw [List.eq_of_mem_replicate ha, List.eq_of_mem_replicate hb]
    simp
  · rfl

end PaxosSolutions
