import PaxosSolutions.NWGadget.Timer
import Mathlib.Data.List.Perm.Basic

/-!
# What a timer keeps

The tree has the events that wait to be posted in the order of their timeouts, and of
those with the same timeout the one that was set last comes first. `BTDelete` takes
the first event with the timeout it is given; that is the event that is cancelled if
no other event with its timeout was set later. Then the hash table has the same
events, and an event that was set waits, was cancelled or was posted.
-/
namespace PaxosSolutions.NWGadget
open Timer

theorem timespecCompare_preorders : Preorders timespecCompare := by
  refine ⟨?_, ?_⟩
  · intro a b
    unfold timespecCompare
    split_ifs <;> omega
  · intro a b c hab hbc
    unfold timespecCompare at *
    split_ifs at * <;> omega

theorem timerEventCompare_preorders (mem : TEAddr → TimerEvent) : Preorders (timerEventCompare mem) :=
  ⟨fun _ _ => timespecCompare_preorders.swap _ _, fun _ _ _ => timespecCompare_preorders.trans _ _ _⟩

section Hash
variable {h : Hash TEAddr TEAddr} {keys keys' : List TEAddr} {p q : TEAddr}

/-- The table has the events under their addresses. -/
structure Filed (h : Hash TEAddr TEAddr) (keys : List TEAddr) : Prop where
  wf : h.WF
  values : ∀ q, h.valuesAt q = if q ∈ keys then [q] else []
  count : h.hCount = keys.length

theorem Filed.get (hf : Filed h keys) (p : TEAddr) : HashGet h p = if p ∈ keys then p else 0 := by
  have hv := h.getItem_value p
  rw [hf.values p] at hv
  unfold HashGet
  cases hi : h.getItem p with
  | none =>
      rw [hi] at hv
      by_cases hp : p ∈ keys
      · rw [if_pos hp] at hv
        cases hv
      · rw [if_neg hp]
        rfl
  | some i =>
      rw [hi] at hv
      by_cases hp : p ∈ keys
      · rw [if_pos hp] at hv ⊢
        exact Option.some.inj hv
      · rw [if_neg hp] at hv
        cases hv

theorem Filed.mem_items (hf : Filed h keys) : p ∈ h.items.map Prod.snd ↔ p ∈ keys := by
  constructor
  · intro hp
    obtain ⟨⟨k, v⟩, hm, rfl⟩ := List.mem_map.mp hp
    have hv := hf.wf.mem_items.mp hm
    rw [hf.values k] at hv
    by_cases hk : k ∈ keys
    · rw [if_pos hk] at hv
      rw [List.mem_singleton.mp hv]
      exact hk
    · rw [if_neg hk] at hv
      cases hv
  · intro hp
    have hv : p ∈ h.valuesAt p := by
      rw [hf.values p, if_pos hp]
      exact List.mem_singleton_self p
    exact List.mem_map.mpr ⟨(p, p), hf.wf.mem_items.mpr hv, rfl⟩

theorem Filed.put (hf : Filed h (keys ++ keys')) (hp : p ∉ keys ++ keys') :
    Filed (h.put p p) (keys ++ p :: keys') where
  wf := hf.wf.put p p
  values := by
    intro q
    rw [h.valuesAt_put, hf.values q]
    by_cases hq : q = p
    · subst hq
      rw [if_neg hp, if_pos rfl, if_pos (by simp)]
      rfl
    · have hmem : q ∈ keys ++ p :: keys' ↔ q ∈ keys ++ keys' := by simp [hq]
      rw [if_neg hq, List.append_nil]
      simp only [hmem]
  count := by
    have hc := hf.count
    simp only [Hash.put, List.length_append, List.length_cons] at hc ⊢
    omega

theorem Filed.remove (hf : Filed h (keys ++ p :: keys')) (hp : p ∉ keys ++ keys') :
    Filed (HashRemove h p) (keys ++ keys') := by
  have hmem : p ∈ keys ++ p :: keys' := by simp
  have hv := h.getItem_value p
  rw [hf.values p, if_pos hmem] at hv
  unfold HashRemove
  cases hi : h.getItem p with
  | none =>
      rw [hi] at hv
      cases hv
  | some i =>
      refine ⟨hf.wf.removeItem hi, ?_, ?_⟩
      · intro q
        rw [h.valuesAt_removeItem, hf.values p, hf.values q, if_pos hmem]
        by_cases hq : q = p
        · subst hq
          rw [if_pos rfl, if_neg hp]
          rfl
        · have hmem : q ∈ keys ++ p :: keys' ↔ q ∈ keys ++ keys' := by simp [hq]
          rw [if_neg hq]
          simp only [hmem]
      · have hc := hf.count
        simp only [Hash.removeItem, List.length_append, List.length_cons] at hc ⊢
        omega

end Hash

/-- The comparator is not a part of what the tree has. -/
theorem BTree.Has.compared {t : BTree TEAddr} {keys : List TEAddr} (ht : t.Has keys)
    (fCompare : TEAddr → TEAddr → ℤ) : BTree.Has { t with bCompare := fCompare } keys := by
  obtain ⟨hn, hempty | ⟨root, lv, top, hg⟩⟩ := ht
  · exact ⟨hn, .inl hempty⟩
  · exact ⟨hn, .inr ⟨root, lv, top, hg.order, hg.bRoot, hg.shape, hg.unused, hg.filled, hg.keys⟩⟩

namespace Timer

/-- The order of the events in the tree: of those with the same timeout the one that
was set last comes first. -/
def Before (s : Timer) (p q : TEAddr) : Prop :=
  timerEventCompare s.mem p q < 0 ∨ (timerEventCompare s.mem p q = 0 ∧ s.call q < s.call p)

/-- What a timer keeps, with the events of the tree in their order. -/
structure Kept (s : Timer) (keys : List TEAddr) : Prop where
  has : s.tBTree.Has keys
  sorted : keys.Pairwise s.Before
  filed : Filed s.tHash keys
  modes : ∀ p ∈ keys, (s.mem p).eMode = .timer ∨ (s.mem p).eMode = .head
  live : s.live.Perm (keys ++ (s.performer.toList ++ s.tExecs))
  nodup : s.live.Nodup
  nonzero : 0 ∉ s.live
  calls : (keys.map s.call ++ (s.cancelled ++ s.posted)).Perm (List.range s.calls)
  posted : s.posted = s.performed ++ s.tExecs.map s.call

/-- A thread that nobody has signalled waits for nothing only if there is nothing, and
for a time only if no event has a timeout before it. -/
def Watched (s : Timer) (keys : List TEAddr) : Prop :=
  match s.timerThread with
  | .start => True
  | .wait => s.tOnOff = false ∧ (s.signalled = false → keys = [])
  | .timedWait _ => s.tOnOff = true ∧ (s.signalled = false →
      ∀ p ∈ keys, 0 ≤ timespecCompare (s.mem p).eTimeout s.tTimeout)

variable {s s' : Timer} {keys l l' : List TEAddr} {p q : TEAddr}

theorem Before.irrefl : ¬ s.Before p p := by
  rintro (h | ⟨-, h⟩)
  · have := (timerEventCompare_preorders s.mem).swap p p
    omega
  · exact Nat.lt_irrefl _ h

theorem Before.congr (hp : (s'.mem p).eTimeout = (s.mem p).eTimeout)
    (hq : (s'.mem q).eTimeout = (s.mem q).eTimeout) (hcp : s'.call p = s.call p)
    (hcq : s'.call q = s.call q) (h : s.Before p q) : s'.Before p q := by
  unfold Before timerEventCompare at *
  rw [hp, hq, hcp, hcq]
  exact h

theorem Kept.ordered (hk : s.Kept keys) : Ordered (timerEventCompare s.mem) keys := by
  refine hk.sorted.imp ?_
  rintro a b (h | ⟨h, -⟩)
  · exact Int.le_of_lt h
  · exact Int.le_of_eq h

theorem Kept.keys_nodup (hk : s.Kept keys) : keys.Nodup := by
  refine hk.sorted.imp ?_
  rintro a b h rfl
  exact Before.irrefl h

theorem Kept.mem_live (hk : s.Kept keys) (hp : p ∈ keys) : p ∈ s.live :=
  hk.live.mem_iff.mpr (List.mem_append_left _ hp)

theorem Kept.ne_zero (hk : s.Kept keys) (hp : p ∈ keys) : p ≠ 0 := by
  rintro rfl
  exact hk.nonzero (hk.mem_live hp)

theorem Kept.get (hk : s.Kept keys) : HashGet s.tHash p ≠ 0 ↔ p ∈ keys := by
  rw [hk.filed.get p]
  by_cases hp : p ∈ keys
  · rw [if_pos hp]
    exact ⟨fun _ => hp, fun _ => hk.ne_zero hp⟩
  · rw [if_neg hp]
    exact ⟨fun h => absurd rfl h, fun h => absurd h hp⟩

theorem Kept.call_lt (hk : s.Kept keys) (hp : p ∈ keys) : s.call p < s.calls := by
  have hmem := List.mem_append_left (s.cancelled ++ s.posted) (List.mem_map_of_mem (f := s.call) hp)
  exact List.mem_range.mp (hk.calls.mem_iff.mp hmem)

theorem timerInit_kept {n : ℕ} (hn : 1 ≤ n) : (TimerInit n).Kept [] where
  has := ⟨hn, .inl ⟨rfl, rfl⟩⟩
  sorted := List.Pairwise.nil
  filed := ⟨Hash.wf_init (by decide) _, fun _ => rfl, rfl⟩
  modes := by simp
  live := List.Perm.refl _
  nodup := List.nodup_nil
  nonzero := by simp [TimerInit]
  calls := List.Perm.refl _
  posted := rfl

theorem Kept.signal (hk : s.Kept keys) : s.signal.Kept keys :=
  ⟨hk.has, hk.sorted, hk.filed, hk.modes, hk.live, hk.nodup, hk.nonzero, hk.calls, hk.posted⟩

/-- The events of the tree that a step leaves alone are in the same order. -/
theorem sorted_congr (hs : keys.Pairwise s.Before)
    (hmem : ∀ q ∈ keys, (s'.mem q).eTimeout = (s.mem q).eTimeout ∧ s'.call q = s.call q) :
    keys.Pairwise s'.Before := by
  refine hs.imp_of_mem ?_
  intro a b ha hb hab
  exact hab.congr (hmem a ha).1 (hmem b hb).1 (hmem a ha).2 (hmem b hb).2

theorem write_self (s : Timer) (p : TEAddr) (f : TimerEvent → TimerEvent) :
    (s.write p f).mem p = f (s.mem p) := Function.update_self ..

theorem write_ne (s : Timer) (f : TimerEvent → TimerEvent) (hq : q ≠ p) :
    (s.write p f).mem q = s.mem q := Function.update_of_ne hq ..

section Set
variable (hk : s.Kept keys) (hfresh : p ∉ s.live) (now : Timespec) (ms : ℤ) (fEvent pArg : ℕ)

theorem set_mem (s : Timer) (now : Timespec) (ms : ℤ) (fEvent pArg : ℕ) (hq : q ≠ p) :
    ((s.timerEventAlloc p ms fEvent pArg).register p now).mem q = s.mem q := by
  have halloc : (s.timerEventAlloc p ms fEvent pArg).mem q = s.mem q := Function.update_of_ne hq ..
  exact (write_ne _ _ hq).trans halloc

theorem enter_mem (s : Timer) (t : BTree TEAddr) (hq : q ≠ p) : (s.enter p t).mem q = s.mem q :=
  Function.update_of_ne hq ..

theorem enter_self (s : Timer) (p : TEAddr) (t : BTree TEAddr) :
    (s.enter p t).mem p = { s.mem p with eMode := .timer } := Function.update_self ..

theorem enter_timeout (s : Timer) (t : BTree TEAddr) (q : TEAddr) :
    ((s.enter p t).mem q).eTimeout = (s.mem q).eTimeout := by
  by_cases hq : q = p
  · rw [hq, enter_self]
  · rw [enter_mem s t hq]

include hk hfresh in
theorem Kept.fresh (hq : q ∈ keys) : q ≠ p := by
  rintro rfl
  exact hfresh (hk.mem_live hq)

include hk hfresh in
/-- An event that is set comes before all that do not come before its timeout. -/
theorem Kept.set (hzero : p ≠ 0) : ∃ t l l',
    BTInsert p ((s.timerEventAlloc p ms fEvent pArg).register p now).tree = some t ∧
      keys = l ++ l' ∧
      (((s.timerEventAlloc p ms fEvent pArg).register p now).enter p t).Kept (l ++ p :: l') := by
  obtain ⟨s₁, hs₁⟩ : ∃ s₁, s₁ = (s.timerEventAlloc p ms fEvent pArg).register p now := ⟨_, rfl⟩
  have hcall : s₁.call = Function.update s.call p s.calls := by
    rw [hs₁]
    rfl
  have hmem : ∀ q ∈ keys, (s₁.mem q).eTimeout = (s.mem q).eTimeout ∧ s₁.call q = s.call q := by
    intro q hq
    have hne := hk.fresh hfresh hq
    rw [hcall, hs₁, set_mem s now ms fEvent pArg hne]
    exact ⟨rfl, Function.update_of_ne hne ..⟩
  have hsorted := sorted_congr hk.sorted hmem
  have hord : Ordered (timerEventCompare s₁.mem) keys := by
    refine hsorted.imp ?_
    rintro a b (h | ⟨h, -⟩)
    · exact Int.le_of_lt h
    · exact Int.le_of_eq h
  have hhas : s₁.tree.Has keys := by
    rw [hs₁]
    exact hk.has.compared _
  have hpre := timerEventCompare_preorders s₁.mem
  obtain ⟨t, l, l', hrun, rfl, ht, hlow, hhigh, -⟩ := btInsert_has (t := s₁.tree) hpre hhas hord p
  rw [← hs₁]
  have hnew : p ∉ l ++ l' := by
    intro hp
    exact hk.fresh hfresh hp rfl
  have hcalls : ∀ {m : List TEAddr}, (∀ q ∈ m, q ≠ p) → m.map s₁.call = m.map s.call := by
    intro m hm
    refine List.map_congr_left ?_
    intro q hq
    rw [hcall]
    exact Function.update_of_ne (hm q hq) ..
  refine ⟨t, l, l', hrun, rfl, ht, ?_, ?_, ?_, ?_, ?_, ?_, ?_, ?_⟩
  · -- the events that do not come before it were set before
    refine sorted_congr (s := s₁) ?_ fun q _ => ⟨enter_timeout s₁ t q, rfl⟩
    obtain ⟨hl, hl', hll'⟩ := List.pairwise_append.mp hsorted
    refine List.pairwise_append.mpr ⟨hl, List.pairwise_cons.mpr ⟨?_, hl'⟩, ?_⟩
    · intro b hb
      have hle : timerEventCompare s₁.mem p b ≤ 0 :=
        Int.not_lt.mp fun h => hhigh b hb ((hpre.swap b p).mpr h)
      rcases Int.lt_or_eq_of_le hle with hlt | heq
      · exact .inl hlt
      · have hmb := List.mem_append_right l hb
        refine .inr ⟨heq, ?_⟩
        rw [(hmem b hmb).2, hcall, Function.update_self]
        exact hk.call_lt hmb
    · intro a ha b hb
      rcases List.mem_cons.mp hb with rfl | hb
      · exact .inl (hlow a ha)
      · exact hll' a ha b hb
  · rw [hs₁]
    exact hk.filed.put hnew
  · intro q hq
    by_cases hqp : q = p
    · rw [hqp, enter_self]
      exact .inl rfl
    · have hold : q ∈ l ++ l' := by
        rcases List.mem_append.mp hq with hq | hq
        · exact List.mem_append_left _ hq
        · exact List.mem_append_right _ (List.mem_of_ne_of_mem hqp hq)
      rw [enter_mem s₁ t hqp, hs₁, set_mem s now ms fEvent pArg hqp]
      exact hk.modes q hold
  · rw [hs₁]
    have hlive := hk.live.cons p
    rw [List.append_assoc] at hlive ⊢
    exact hlive.trans List.perm_middle.symm
  · rw [hs₁]
    exact List.nodup_cons.mpr ⟨hfresh, hk.nodup⟩
  · rw [hs₁]
    intro h
    rcases List.mem_cons.mp h with h | h
    · exact hzero h.symm
    · exact hk.nonzero h
  · have hl : l.map s₁.call = l.map s.call :=
      hcalls fun q hq => hk.fresh hfresh (List.mem_append_left l' hq)
    have hl' : l'.map s₁.call = l'.map s.call :=
      hcalls fun q hq => hk.fresh hfresh (List.mem_append_right l hq)
    have hp : s₁.call p = s.calls := by rw [hcall, Function.update_self]
    have hc := hk.calls
    rw [List.map_append] at hc
    change ((l ++ p :: l').map s₁.call ++ (s₁.cancelled ++ s₁.posted)).Perm (List.range s₁.calls)
    have hcount : s₁.calls = s.calls + 1 := by
      rw [hs₁]
      rfl
    rw [List.map_append, List.map_cons, hl, hl', hp, hcount, List.range_succ, List.append_assoc]
    rw [List.append_assoc] at hc
    rw [hs₁]
    exact List.perm_middle.trans ((hc.cons s.calls).trans (List.perm_append_singleton _ _).symm)
  · have hexecs : s.tExecs.map s₁.call = s.tExecs.map s.call := by
      refine hcalls ?_
      rintro q hq rfl
      exact hfresh (hk.live.mem_iff.mpr (by simp [hq]))
    change s₁.posted = s₁.performed ++ s₁.tExecs.map s₁.call
    have hsame : s₁.tExecs = s.tExecs := by
      rw [hs₁]
      rfl
    rw [hsame, hexecs, hs₁]
    exact hk.posted

end Set

section Leave
variable {t : BTree TEAddr}

theorem Kept.not_mem (hk : s.Kept (l ++ p :: l')) : p ∉ l ++ l' := by
  have hn := List.perm_middle.nodup_iff.mp hk.keys_nodup
  exact (List.nodup_cons.mp hn).1

theorem Kept.sublist (hk : s.Kept (l ++ p :: l')) : (l ++ l').Pairwise s.Before :=
  hk.sorted.sublist (List.Sublist.append_left (List.sublist_cons_self _ _) l)

theorem Kept.dropped (hk : s.Kept (l ++ p :: l')) (ht : t.Has (l ++ l')) :
    ((s.leave p t).drop p).Kept (l ++ l') where
  has := ht
  sorted := hk.sublist
  filed := hk.filed.remove hk.not_mem
  modes := by
    intro q hq
    refine hk.modes q ?_
    rcases List.mem_append.mp hq with hq | hq
    · exact List.mem_append_left _ hq
    · exact List.mem_append_right _ (List.mem_cons_of_mem p hq)
  live := by
    have hlive := hk.live
    rw [List.append_assoc] at hlive ⊢
    have herase := (hlive.trans List.perm_middle).erase p
    rw [List.erase_cons_head] at herase
    exact herase
  nodup := hk.nodup.erase p
  nonzero := by
    intro h
    exact hk.nonzero (List.mem_of_mem_erase h)
  calls := by
    have hc := hk.calls
    rw [List.map_append, List.map_cons, List.append_assoc] at hc
    rw [List.map_append, List.append_assoc]
    refine List.Perm.trans ?_ hc
    refine (List.perm_append_left_iff _).mpr ?_
    exact List.perm_middle
  posted := hk.posted

theorem Kept.posts (hk : s.Kept (l ++ p :: l')) (ht : t.Has (l ++ l')) (now : Timespec) :
    ((s.leave p t).post p now).Kept (l ++ l') := by
  have hne : ∀ q ∈ l ++ l', q ≠ p := by
    rintro q hq rfl
    exact hk.not_mem hq
  have hmem : ∀ q ∈ l ++ l', ((s.leave p t).post p now).mem q = s.mem q := by
    intro q hq
    exact Function.update_of_ne (hne q hq) ..
  refine ⟨ht, ?_, hk.filed.remove hk.not_mem, ?_, ?_, hk.nodup, hk.nonzero, ?_, ?_⟩
  · refine sorted_congr hk.sublist ?_
    intro q hq
    rw [hmem q hq]
    exact ⟨rfl, rfl⟩
  · intro q hq
    rw [hmem q hq]
    exact (hk.dropped ht).modes q hq
  · have hlive := hk.live
    rw [List.append_assoc] at hlive ⊢
    refine hlive.trans (List.perm_middle.trans ?_)
    change (p :: (l ++ (l' ++ _))).Perm (l ++ (l' ++ (s.performer.toList ++ (s.tExecs ++ [p]))))
    rw [← List.append_assoc, ← List.append_assoc, ← List.append_assoc, ← List.append_assoc,
      ← List.append_assoc]
    exact (List.perm_append_singleton p _).symm
  · have hc := hk.calls
    rw [List.map_append, List.map_cons, List.append_assoc] at hc
    change ((l ++ l').map s.call ++ (s.cancelled ++ (s.posted ++ [s.call p]))).Perm _
    rw [List.map_append, List.append_assoc]
    refine List.Perm.trans ((List.perm_append_left_iff _).mpr ?_) hc
    rw [← List.append_assoc, ← List.append_assoc]
    refine (List.perm_append_singleton _ _).trans (List.Perm.of_eq ?_)
    simp only [List.append_assoc, List.cons_append]
  · change s.posted ++ [s.call p] = s.performed ++ (s.tExecs ++ [p]).map s.call
    rw [List.map_append, ← List.append_assoc, ← hk.posted]
    rfl

end Leave

/-- Fewer events, with the same timeouts, are waited for as well. -/
theorem Watched.subset (hw : s.Watched keys) (hthread : s'.timerThread = s.timerThread)
    (hon : s'.tOnOff = s.tOnOff) (htimeout : s'.tTimeout = s.tTimeout)
    (hsignal : s'.signalled = false → s.signalled = false)
    (hsub : ∀ q ∈ l, q ∈ keys ∧ (s'.mem q).eTimeout = (s.mem q).eTimeout) : s'.Watched l := by
  unfold Watched at *
  rw [hthread, hon, htimeout]
  cases hs : s.timerThread with
  | start => trivial
  | wait =>
      rw [hs] at hw
      refine ⟨hw.1, ?_⟩
      intro hsig
      have hnil := hw.2 (hsignal hsig)
      refine List.eq_nil_iff_forall_not_mem.mpr ?_
      intro q hq
      have hmem := (hsub q hq).1
      rw [hnil] at hmem
      cases hmem
  | timedWait pEvent =>
      rw [hs] at hw
      refine ⟨hw.1, ?_⟩
      intro hsig q hq
      obtain ⟨hmem, heq⟩ := hsub q hq
      rw [heq]
      exact hw.2 (hsignal hsig) q hmem

/-- A thread that is signalled looks again. -/
theorem Watched.signal (hw : s.Watched keys) (hthread : s'.timerThread = s.timerThread)
    (hon : s'.tOnOff = s.tOnOff) : s'.signal.Watched l := by
  have hsig : s.timerThread ≠ .start → s'.signal.signalled = true := by
    intro h
    unfold Timer.signal
    rw [hthread]
    simp [h]
  unfold Watched at *
  change match s'.timerThread with
    | .start => True
    | .wait => s'.tOnOff = false ∧ (s'.signal.signalled = false → _)
    | .timedWait _ => s'.tOnOff = true ∧ (s'.signal.signalled = false → _)
  rw [hthread, hon]
  cases hs : s.timerThread with
  | start => trivial
  | wait =>
      rw [hs] at hw
      refine ⟨hw.1, ?_⟩
      intro h
      rw [hsig (by simp [hs])] at h
      cases h
  | timedWait _ =>
      rw [hs] at hw
      refine ⟨hw.1, ?_⟩
      intro h
      rw [hsig (by simp [hs])] at h
      cases h

/-- The event is the last that was set of those that wait with its timeout. -/
def Newest (s : Timer) (p : TEAddr) : Prop :=
  ∀ q ∈ s.inHash, q ≠ p → timerEventCompare s.mem q p = 0 → s.call q < s.call p

/-- The event that is cancelled is the one that `BTDelete` takes. -/
theorem Kept.cancel (hk : s.Kept keys) (hp : p ∈ keys) (hnew : s.Newest p) : ∃ s' l l',
    s.timerCancel p = some (s', (s.mem p).ePArg) ∧ keys = l ++ p :: l' ∧ s'.Kept (l ++ l') ∧
      (s.Watched keys → s'.Watched (l ++ l')) := by
  have hpre := timerEventCompare_preorders s.mem
  obtain ⟨t, l, x, l', hrun, hkeys, hlow, heq, ht, -⟩ :=
    btDelete_has (t := s.tree) hpre (hk.has.compared _) hk.ordered hp
  have hx : x ∈ keys := by
    rw [hkeys]
    simp
  have hself := hpre.swap p p
  have hxp : x = p := by
    by_contra hne
    have hcall : s.call x < s.call p := hnew x (hk.filed.mem_items.mpr hx) hne heq
    have hmem : p ∈ l ++ x :: l' := hkeys ▸ hp
    have hsorted := hk.sorted
    rw [hkeys] at hsorted
    rcases List.mem_append.mp hmem with hmem | hmem
    · have hlt : timerEventCompare s.mem p p < 0 := hlow p hmem
      exact absurd hlt (by omega)
    · have hbehind := List.mem_of_ne_of_mem (Ne.symm hne) hmem
      rcases (List.pairwise_cons.mp (List.pairwise_append.mp hsorted).2.1).1 p hbehind with h | ⟨-, h⟩
      · exact absurd heq (Int.ne_of_lt h)
      · exact Nat.lt_asymm hcall h
  subst hxp
  rw [hkeys] at hk
  have hdrop := hk.dropped ht
  have hsub : ∀ q ∈ l ++ l', q ∈ keys ∧ (s.mem q).eTimeout = (s.mem q).eTimeout := by
    intro q hq
    rw [hkeys]
    refine ⟨?_, rfl⟩
    rcases List.mem_append.mp hq with hq | hq
    · exact List.mem_append_left _ hq
    · exact List.mem_append_right _ (List.mem_cons_of_mem x hq)
  have hstep : s.timerCancel x = some (if (s.mem x).eMode = .head then ((s.leave x t).drop x).signal
      else (s.leave x t).drop x, (s.mem x).ePArg) := by
    unfold timerCancel
    rw [if_pos (hk.get.mpr (hkeys ▸ hp)), if_pos (hk.modes x (hkeys ▸ hp)), hrun]
    change some ((if (s.mem x).eMode = .head then (s.leave x t).signal else s.leave x t).drop x, _) = _
    by_cases hhead : (s.mem x).eMode = .head
    · rw [if_pos hhead, if_pos hhead]
      rfl
    · simp only [if_neg hhead]
      rfl
  refine ⟨_, l, l', hstep, hkeys, ?_, ?_⟩
  · by_cases hhead : (s.mem x).eMode = .head
    · rw [if_pos hhead]
      exact hdrop.signal
    · rw [if_neg hhead]
      exact hdrop
  · intro hw
    by_cases hhead : (s.mem x).eMode = .head
    · rw [if_pos hhead]
      refine hw.subset rfl rfl rfl ?_ hsub
      intro hsig
      exact (Bool.or_eq_false_iff.mp hsig).1
    · rw [if_neg hhead]
      exact hw.subset rfl rfl rfl id hsub

/-- What is not waiting is not cancelled. -/
theorem Kept.cancel_none (hk : s.Kept keys) (hp : p ∉ keys) : s.timerCancel p = some (s, 0) := by
  unfold timerCancel
  rw [if_neg (mt hk.get.mp hp)]

theorem write_timeout (s : Timer) (f : TimerEvent → TimerEvent) (hf : ∀ e, (f e).eTimeout = e.eTimeout)
    (q : TEAddr) : ((s.write p f).mem q).eTimeout = (s.mem q).eTimeout := by
  by_cases hq : q = p
  · rw [hq, write_self, hf]
  · rw [write_ne s _ hq]

theorem Kept.write (hk : s.Kept keys) (f : TimerEvent → TimerEvent)
    (htimeout : ∀ e, (f e).eTimeout = e.eTimeout)
    (hmode : p ∈ keys → (f (s.mem p)).eMode = .timer ∨ (f (s.mem p)).eMode = .head) :
    (s.write p f).Kept keys := by
  refine ⟨hk.has, sorted_congr hk.sorted fun q _ => ⟨write_timeout s f htimeout q, rfl⟩, hk.filed, ?_, hk.live, hk.nodup,
    hk.nonzero, hk.calls, hk.posted⟩
  intro q hq
  by_cases hqp : q = p
  · rw [hqp, write_self]
    exact hmode (hqp ▸ hq)
  · rw [write_ne s _ hqp]
    exact hk.modes q hq

/-- A thread that waits for nobody's signal has looked at the first event. -/
theorem Kept.headWait (hk : s.Kept keys) : ∃ s', s.headWait = some s' ∧ s'.Kept keys ∧
    s'.Watched keys ∧ s'.posted = s.posted := by
  obtain ⟨hnone, hsome⟩ := btcHead_spec BTCursorOpen (hk.has.compared (timerEventCompare s.mem))
  unfold Timer.headWait
  cases keys with
  | nil =>
      obtain ⟨cur, hrun⟩ := hnone rfl
      unfold tree
      rw [hrun]
      refine ⟨_, rfl, ?_, ⟨rfl, fun _ => rfl⟩, rfl⟩
      exact ⟨hk.has, hk.sorted, hk.filed, hk.modes, hk.live, hk.nodup, hk.nonzero, hk.calls, hk.posted⟩
  | cons x rest =>
      obtain ⟨cur, q, hrun, -, -, hkey, -⟩ := hsome x rest rfl
      unfold tree
      rw [hrun]
      obtain ⟨s₁, hs₁⟩ : ∃ s₁, s₁ = s.write x fun e => { e with eMode := .head } := ⟨_, rfl⟩
      have hk₁ : s₁.Kept (x :: rest) := by
        rw [hs₁]
        exact hk.write _ (fun _ => rfl) fun _ => .inr rfl
      have hmem : ∀ q, (s₁.mem q).eTimeout = (s.mem q).eTimeout := by
        intro q
        rw [hs₁]
        exact write_timeout s (fun e => { e with eMode := .head }) (fun _ => rfl) q
      refine ⟨{ s₁ with
        tOnOff := true
        tTimeout := (s.mem x).eTimeout
        timerThread := .timedWait x
        signalled := false }, ?_, ?_, ⟨rfl, ?_⟩, ?_⟩
      · rw [hs₁, ← hkey]
        rfl
      · exact ⟨hk₁.has, hk₁.sorted, hk₁.filed, hk₁.modes, hk₁.live, hk₁.nodup, hk₁.nonzero, hk₁.calls,
          hk₁.posted⟩
      · intro _ q hq
        change 0 ≤ timespecCompare (s₁.mem q).eTimeout (s.mem x).eTimeout
        rw [hmem q]
        have hpre := timerEventCompare_preorders s.mem
        rcases List.mem_cons.mp hq with rfl | hq
        · have := hpre.swap q q
          unfold timerEventCompare at this
          omega
        · have hle := (List.pairwise_cons.mp hk.ordered).1 q hq
          have := hpre.swap q x
          unfold timerEventCompare at this hle
          omega
      · rw [hs₁]
        rfl

/-- The events that are due at a time. -/
def due (s : Timer) (now : Timespec) (p : TEAddr) : Bool :=
  decide (timespecCompare (s.mem p).eTimeout now < 0)

/-- What is due is posted, in the order of the tree. -/
theorem Kept.postDue (now : Timespec) (fuel : ℕ) (hk : s.Kept keys) (hfuel : keys.length < fuel) :
    ∃ s', s.postDue now fuel = some s' ∧ s'.Kept (keys.filter fun p => !s.due now p) ∧
      s'.posted = s.posted ++ (keys.filter (s.due now)).map s.call := by
  induction fuel generalizing s keys with
  | zero => exact absurd hfuel (Nat.not_lt_zero _)
  | succ fuel ih =>
      obtain ⟨hnone, hsome⟩ := btcHead_spec BTCursorOpen
        (hk.has.compared (timerEventCompare s.mem))
      rw [Timer.postDue]
      unfold tree
      cases keys with
      | nil =>
          obtain ⟨cur, hrun⟩ := hnone rfl
          rw [hrun]
          exact ⟨s, rfl, hk, (List.append_nil _).symm⟩
      | cons x rest =>
          obtain ⟨cur, q, hrun, hpage, hz, hkey, t, hdel, ht, -⟩ := hsome x rest rfl
          rw [hrun]
          change ∃ s', (if timespecCompare (s.mem cur.cKey).eTimeout now < 0 then
            (BTCDelete (cur.cPage.getD 0) cur.cZIndex s.tree).bind fun t =>
              Timer.postDue now fuel ((s.leave cur.cKey t).post cur.cKey now) else some s) = some s' ∧ _
          rw [hkey, hpage, hz]
          by_cases hdue : timespecCompare (s.mem x).eTimeout now < 0
          · have hx : s.due now x = true := decide_eq_true hdue
            have hpost : ((s.leave x t).post x now).Kept rest := Kept.posts (l := []) hk ht now
            have hsame : ∀ q ∈ rest, ((s.leave x t).post x now).due now q = s.due now q := by
              intro q hq
              have hqx : q ≠ x := by
                rintro rfl
                exact Kept.not_mem (l := []) hk hq
              unfold due
              rw [show ((s.leave x t).post x now).mem q = s.mem q from Function.update_of_ne hqx ..]
            obtain ⟨s', hrest, hkept, hposted⟩ := ih hpost (by simpa using hfuel)
            have hdel' : BTCDelete ((some q).getD 0) 0 s.tree = some t := hdel
            refine ⟨s', ?_, ?_, ?_⟩
            · rw [if_pos hdue, hdel']
              exact hrest
            · rw [List.filter_cons_of_neg (by simp [hx])]
              rw [List.filter_congr fun q hq => congrArg _ (hsame q hq)] at hkept
              exact hkept
            · rw [List.filter_cons_of_pos hx, hposted, List.filter_congr hsame]
              change s.posted ++ [s.call x] ++ _ = _
              rw [List.append_assoc]
              rfl
          · have hpre := timespecCompare_preorders
            have hall : ∀ q ∈ x :: rest, s.due now q = false := by
              intro q hq
              refine decide_eq_false ?_
              intro hlt
              rcases List.mem_cons.mp hq with rfl | hq
              · exact hdue hlt
              · have hle := (List.pairwise_cons.mp hk.ordered).1 q hq
                have hnow : timespecCompare now (s.mem x).eTimeout ≤ 0 :=
                  Int.not_lt.mp fun h => hdue ((hpre.swap _ _).mpr h)
                have hnot := hpre.trans _ _ _ hnow hle
                exact absurd ((hpre.swap _ _).mp hlt) (Int.not_lt.mpr hnot)
            refine ⟨s, by rw [if_neg hdue], ?_, ?_⟩
            · rw [List.filter_eq_self.mpr fun q hq => by rw [hall q hq]; rfl]
              exact hk
            · rw [List.filter_eq_nil_iff.mpr fun q hq => by rw [hall q hq]; exact Bool.false_ne_true]
              exact (List.append_nil _).symm

/-- A turn of the thread posts what is due if it has waited until a timeout, and
nothing else. -/
theorem Kept.turn (hk : s.Kept keys) (timedOut : Option Timespec)
    (hcan : s.Can (.turn timedOut)) : ∃ s' keys', s.turn timedOut = some s' ∧ s'.Kept keys' ∧
      s'.Watched keys' ∧ (∀ now, timedOut = some now → keys' = keys.filter (fun p => !s.due now p) ∧
        s'.posted = s.posted ++ (keys.filter (s.due now)).map s.call) ∧
      (timedOut = none → keys' = keys ∧ s'.posted = s.posted) := by
  unfold Timer.turn
  cases timedOut with
  | some now =>
      obtain ⟨p, hp⟩ := hcan
      obtain ⟨s₁, hrun, hk₁, hposted⟩ := hk.postDue now (s.tHash.hCount + 1)
        (by rw [hk.filed.count]; exact Nat.lt_succ_self _)
      obtain ⟨s', hhead, hk', hw', hposted'⟩ := hk₁.headWait
      refine ⟨s', _, ?_, hk', hw', ?_, fun h => absurd h (by simp)⟩
      · simp only [hp]
        change (s.postDue now (s.tHash.hCount + 1)).bind _ = _
        rw [hrun]
        exact hhead
      · intro now' hnow
        cases hnow
        exact ⟨rfl, hposted'.trans hposted⟩
  | none =>
      cases hs : s.timerThread with
      | start =>
          obtain ⟨s', hhead, hk', hw', hposted⟩ := hk.headWait
          exact ⟨s', keys, hhead, hk', hw', fun _ h => absurd h (by simp), fun _ => ⟨rfl, hposted⟩⟩
      | wait =>
          obtain ⟨s', hhead, hk', hw', hposted⟩ := hk.headWait
          exact ⟨s', keys, hhead, hk', hw', fun _ h => absurd h (by simp), fun _ => ⟨rfl, hposted⟩⟩
      | timedWait pEvent =>
          by_cases hget : HashGet s.tHash pEvent ≠ 0
          · have hkw := hk.write (p := pEvent) (fun e => { e with eMode := .timer }) (fun _ => rfl)
              fun _ => .inl rfl
            obtain ⟨s', hhead, hk', hw', hposted⟩ := hkw.headWait
            refine ⟨s', keys, ?_, hk', hw', fun _ h => absurd h (by simp), fun _ => ⟨rfl, hposted⟩⟩
            exact (if_pos hget).trans hhead
          · obtain ⟨s', hhead, hk', hw', hposted⟩ := hk.headWait
            refine ⟨s', keys, ?_, hk', hw', fun _ h => absurd h (by simp), fun _ => ⟨rfl, hposted⟩⟩
            exact (if_neg hget).trans hhead

theorem Kept.take (hk : s.Kept keys) (hcan : s.performer = none) (now : Timespec) :
    (s.take now).Kept keys := by
  unfold Timer.take
  cases hx : s.tExecs with
  | nil => exact hk
  | cons p rest =>
      have hkw := hk.write (p := p) (fun e => { e with eExec := now }) (fun _ => rfl) (hk.modes p)
      refine ⟨hkw.has, hkw.sorted, hkw.filed, hkw.modes, ?_, hkw.nodup, hkw.nonzero, hkw.calls, ?_⟩
      · have hlive := hk.live
        rw [hcan, hx] at hlive
        exact hlive
      · have hposted := hk.posted
        rw [hx, List.map_cons, List.append_cons] at hposted
        exact hposted

theorem Kept.release (hk : s.Kept keys) : s.release.Kept keys := by
  unfold Timer.release
  cases hp : s.performer with
  | none => exact hk
  | some p =>
      refine ⟨hk.has, hk.sorted, hk.filed, hk.modes, ?_, hk.nodup.erase p, ?_, hk.calls, hk.posted⟩
      · have hlive := hk.live
        rw [hp] at hlive
        have herase := (hlive.trans List.perm_middle).erase p
        rw [List.erase_cons_head] at herase
        exact herase
      · intro h
        exact hk.nonzero (List.mem_of_mem_erase h)

theorem Watched.take (hw : s.Watched keys) (now : Timespec) : (s.take now).Watched keys := by
  unfold Timer.take
  cases s.tExecs with
  | nil => exact hw
  | cons p rest =>
      refine hw.subset rfl rfl rfl id ?_
      intro q hq
      exact ⟨hq, write_timeout s (fun e => { e with eExec := now }) (fun _ => rfl) q⟩

theorem Watched.release (hw : s.Watched keys) : s.release.Watched keys := by
  unfold Timer.release
  cases s.performer with
  | none => exact hw
  | some p => exact hw.subset rfl rfl rfl id fun q hq => ⟨hq, rfl⟩

/-- `TimerSet` wakes the thread if it would wait too long. -/
theorem Kept.timerSet (hk : s.Kept keys) (hw : s.Watched keys) (hzero : p ≠ 0) (hfresh : p ∉ s.live)
    (now : Timespec) (ms : ℤ) (fEvent pArg : ℕ) : ∃ s' l l',
      s.timerSet p now ms fEvent pArg = some s' ∧ keys = l ++ l' ∧ s'.Kept (l ++ p :: l') ∧
        s'.Watched (l ++ p :: l') ∧ s'.posted = s.posted := by
  obtain ⟨t, l, l', hrun, hkeys, hkept⟩ := hk.set hfresh now ms fEvent pArg hzero
  obtain ⟨s₂, hs₂⟩ : ∃ s₂, s₂ = ((s.timerEventAlloc p ms fEvent pArg).register p now).enter p t :=
    ⟨_, rfl⟩
  rw [← hs₂] at hkept
  have hold : ∀ q ∈ l ++ l', (s₂.mem q).eTimeout = (s.mem q).eTimeout := by
    intro q hq
    have hne := hk.fresh hfresh (hkeys ▸ hq)
    rw [hs₂, enter_mem _ t hne, set_mem s now ms fEvent pArg hne]
  have hstep : s.timerSet p now ms fEvent pArg =
      if s₂.tOnOff = false ∨ timespecCompare (s₂.mem p).eTimeout s₂.tTimeout < 0 then some s₂.signal
      else some s₂ := by
    unfold Timer.timerSet timerAdd
    change (BTInsert p ((s.timerEventAlloc p ms fEvent pArg).register p now).tree).bind _ = _
    rw [hrun, hs₂]
    rfl
  have hposted : s₂.posted = s.posted := by
    rw [hs₂]
    rfl
  have hthread : s₂.timerThread = s.timerThread := by
    rw [hs₂]
    rfl
  have hon : s₂.tOnOff = s.tOnOff := by
    rw [hs₂]
    rfl
  by_cases hearly : s₂.tOnOff = false ∨ timespecCompare (s₂.mem p).eTimeout s₂.tTimeout < 0
  · refine ⟨s₂.signal, l, l', by rw [hstep, if_pos hearly], hkeys, hkept.signal, ?_, hposted⟩
    exact hw.signal hthread hon
  · have hsignal : s₂.signalled = s.signalled := by
      rw [hs₂]
      rfl
    have htimeout : s₂.tTimeout = s.tTimeout := by
      rw [hs₂]
      rfl
    refine ⟨s₂, l, l', by rw [hstep, if_neg hearly], hkeys, hkept, ?_, hposted⟩
    rw [htimeout, hon] at hearly
    unfold Watched at *
    rw [hthread, hon, hsignal, htimeout]
    cases hs : s.timerThread with
    | start => trivial
    | wait =>
        rw [hs] at hw
        exact absurd (.inl hw.1) hearly
    | timedWait _ =>
        rw [hs] at hw
        refine ⟨hw.1, ?_⟩
        intro hsig q hq
        by_cases hqp : q = p
        · rw [hqp]
          exact Int.not_lt.mp fun h => hearly (.inr h)
        · have hmem : q ∈ l ++ l' := by
            rcases List.mem_append.mp hq with hq | hq
            · exact List.mem_append_left _ hq
            · exact List.mem_append_right _ (List.mem_of_ne_of_mem hqp hq)
          rw [hold q hmem]
          exact hw.2 hsig q (hkeys ▸ hmem)

/-- An event that waits is cancelled only if it is the last that was set of those with
its timeout. -/
def Meets (s : Timer) : TimerOp → Prop
  | .cancel p => p ∈ s.inHash → s.Newest p
  | _ => True

end Timer

/-- The runs of a timer whose steps meet the condition. -/
inductive TimerRuns (bTreeN : ℕ) : Timer → Prop
  | init : TimerRuns bTreeN (TimerInit bTreeN)
  | step {s s' : Timer} (op : TimerOp) : TimerRuns bTreeN s → s.Can op → s.Meets op →
      s.step op = some s' → TimerRuns bTreeN s'

namespace Timer

/-- The two indexes have the same events, each once and none of them freed; every call of
`TimerSet` has its event in the tree, was cancelled or was posted, and only one of these,
once; and what was posted is with the performer or in its queue. -/
structure Agrees (s : Timer) : Prop where
  same : ∀ p, p ∈ s.inTree ↔ p ∈ s.inHash
  once : s.inTree.Nodup
  allocated : ∀ p ∈ s.inTree, p ∈ s.live
  calls : (s.inTree.map s.call ++ (s.cancelled ++ s.posted)).Perm (List.range s.calls)
  posted : s.posted = s.performed ++ s.tExecs.map s.call
  watched : s.Watched s.inTree

variable {s s' : Timer} {keys : List TEAddr} {p : TEAddr}

theorem Kept.inTree (hk : s.Kept keys) : s.inTree = keys := hk.has.inOrder

theorem Kept.mem_hash (hk : s.Kept keys) : p ∈ s.inHash ↔ p ∈ keys := hk.filed.mem_items

theorem Kept.agrees (hk : s.Kept keys) (hw : s.Watched keys) : s.Agrees := by
  have hin := hk.inTree
  refine ⟨?_, ?_, ?_, ?_, hk.posted, ?_⟩
  · intro p
    rw [hin, hk.mem_hash]
  · rw [hin]
    exact hk.keys_nodup
  · intro p hp
    rw [hin] at hp
    exact hk.mem_live hp
  · rw [hin]
    exact hk.calls
  · rw [hin]
    exact hw

/-- A step comes to an end and keeps the timer. -/
theorem Kept.step (hk : s.Kept keys) (hw : s.Watched keys) {op : TimerOp} (hcan : s.Can op)
    (hmeets : s.Meets op) : ∃ s' keys', s.step op = some s' ∧ s'.Kept keys' ∧ s'.Watched keys' := by
  cases op with
  | set p now ms fEvent pArg =>
      obtain ⟨s', l, l', hrun, -, hk', hw', -⟩ := hk.timerSet hw hcan.1 hcan.2 now ms fEvent pArg
      exact ⟨s', _, hrun, hk', hw'⟩
  | cancel p =>
      by_cases hp : p ∈ keys
      · obtain ⟨s', l, l', hrun, -, hk', hw'⟩ := hk.cancel hp (hmeets (hk.mem_hash.mpr hp))
        exact ⟨s', _, congrArg (Option.map Prod.fst) hrun, hk', hw' hw⟩
      · exact ⟨s, keys, congrArg (Option.map Prod.fst) (hk.cancel_none hp), hk, hw⟩
  | turn timedOut =>
      obtain ⟨s', keys', hrun, hk', hw', -⟩ := hk.turn timedOut hcan
      exact ⟨s', keys', hrun, hk', hw'⟩
  | take now =>
      exact ⟨_, keys, rfl, hk.take hcan now, hw.take now⟩
  | release =>
      exact ⟨_, keys, rfl, hk.release, hw.release⟩

end Timer

theorem TimerRuns.kept {n : ℕ} {s : Timer} (hn : 1 ≤ n) (hr : TimerRuns n s) :
    ∃ keys, s.Kept keys ∧ s.Watched keys := by
  induction hr with
  | init => exact ⟨[], timerInit_kept hn, trivial⟩
  | step op _ hcan hmeets hrun ih =>
      obtain ⟨keys, hk, hw⟩ := ih
      obtain ⟨s', keys', hrun', hk', hw'⟩ := hk.step hw hcan hmeets
      cases hrun.symm.trans hrun'
      exact ⟨keys', hk', hw'⟩

/-- In every state of a run in which an event is cancelled only when it is the last that
was set of those with its timeout, the indexes agree, the next step comes to an end,
such a cancel takes out the event it is asked for and returns its argument, and a
timeout posts what is due. -/
theorem timerRuns_agrees {n : ℕ} {s : Timer} (hn : 1 ≤ n) (hr : TimerRuns n s) :
    s.Agrees ∧ (∀ op, s.Can op → s.Meets op → ∃ s', s.step op = some s') ∧
      (∀ p ∈ s.inHash, s.Newest p → ∃ s', s.timerCancel p = some (s', (s.mem p).ePArg) ∧
        s'.inTree = s.inTree.erase p ∧ ∀ q, q ∈ s'.inHash ↔ q ∈ s.inHash ∧ q ≠ p) ∧
      (∀ p, p ∉ s.inHash → s.timerCancel p = some (s, 0)) ∧
      ∀ now, s.Can (.turn (some now)) → ∃ s', s.turn (some now) = some s' ∧
        s'.inTree = s.inTree.filter (fun p => !s.due now p) ∧
        s'.posted = s.posted ++ (s.inTree.filter (s.due now)).map s.call := by
  obtain ⟨keys, hk, hw⟩ := hr.kept hn
  have hin := hk.inTree
  refine ⟨hk.agrees hw, ?_, ?_, ?_, ?_⟩
  · intro op hcan hmeets
    obtain ⟨s', -, hrun, -⟩ := hk.step hw hcan hmeets
    exact ⟨s', hrun⟩
  · intro p hp hnew
    obtain ⟨s', l, l', hrun, hkeys, hk', -⟩ := hk.cancel (hk.mem_hash.mp hp) hnew
    rw [hkeys] at hk hin
    have hnot := hk.not_mem
    refine ⟨s', hrun, ?_, ?_⟩
    · rw [hk'.inTree, hin, List.erase_append_right _ fun h => hnot (List.mem_append_left l' h),
        List.erase_cons_head]
    · intro q
      rw [hk'.mem_hash, hk.mem_hash]
      constructor
      · intro hq
        refine ⟨?_, ?_⟩
        · rcases List.mem_append.mp hq with hq | hq
          · exact List.mem_append_left _ hq
          · exact List.mem_append_right _ (List.mem_cons_of_mem p hq)
        · rintro rfl
          exact hnot hq
      · intro hq
        rcases List.mem_append.mp hq.1 with hq' | hq'
        · exact List.mem_append_left _ hq'
        · exact List.mem_append_right _ (List.mem_of_ne_of_mem hq.2 hq')
  · intro p hp
    exact hk.cancel_none (mt hk.mem_hash.mpr hp)
  · intro now hcan
    obtain ⟨s', keys', hrun, hk', -, hposts, -⟩ := hk.turn (some now) hcan
    obtain ⟨hkeys', hposted⟩ := hposts now rfl
    exact ⟨s', hrun, by rw [hk'.inTree, hkeys', hin], by rw [hposted, hin]⟩

/-- Two events with one timeout, of which the last that was set is cancelled. -/
theorem timerRuns_agrees_pair : ∃ s, TimerRuns 5 s ∧ s.inTree = [1] ∧ s.cancelled = [1] ∧ s.Agrees := by
  have hfirst : (1 : ℕ) ≠ 0 ∧ (1 : ℕ) ∉ ([] : List ℕ) := by decide
  have hsecond : (2 : ℕ) ≠ 0 ∧ (2 : ℕ) ∉ [1] := by decide
  have hpair : ∃ s, TimerRuns 5 s ∧ s.Meets (.cancel 2) ∧ ∃ s', s.step (.cancel 2) = some s' ∧
      s'.inTree = [1] ∧ s'.cancelled = [1] := by
    refine ⟨_, (TimerRuns.init.step (.set 1 ⟨5, 0⟩ 10 0 11) hfirst trivial rfl).step
      (.set 2 ⟨5, 5000000⟩ 5 0 12) hsecond trivial rfl, ?_, _, rfl, rfl, rfl⟩
    intro _ q hq hne _
    have hmem : q ∈ [1, 2] := hq
    rcases List.mem_pair.mp hmem with rfl | rfl
    · exact Nat.zero_lt_one
    · exact absurd rfl hne
  obtain ⟨s, hr, hmeets, s', hrun, hin, hc⟩ := hpair
  have hr' := hr.step (.cancel 2) trivial hmeets hrun
  exact ⟨s', hr', hin, hc, (timerRuns_agrees (by decide) hr').1⟩

/-- Two events with one timeout, of which the first that was set is cancelled: the tree
has it still, and has lost the other. -/
theorem timerCancel_takes_other : ∃ s₁ s₂ s₃, (TimerInit 5).Can (.set 1 ⟨5, 0⟩ 10 0 11) ∧
    (TimerInit 5).step (.set 1 ⟨5, 0⟩ 10 0 11) = some s₁ ∧ s₁.Can (.set 2 ⟨5, 5000000⟩ 5 0 12) ∧
    s₁.step (.set 2 ⟨5, 5000000⟩ 5 0 12) = some s₂ ∧ 1 ∈ s₂.inHash ∧ s₂.step (.cancel 1) = some s₃ ∧
    s₃.inTree = [1] ∧ s₃.inHash = [2] := by
  have hfirst : (1 : ℕ) ≠ 0 ∧ (1 : ℕ) ∉ ([] : List ℕ) := by decide
  have hsecond : (2 : ℕ) ≠ 0 ∧ (2 : ℕ) ∉ [1] := by decide
  exact ⟨_, _, _, hfirst, rfl, hsecond, rfl, List.mem_cons_self, rfl, rfl, rfl⟩

end PaxosSolutions.NWGadget
