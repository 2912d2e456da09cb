import PaxosSolutions.PFS.LockQueue

/-!
# Trying for a lock

A try looks at the count and then locks like any other request, which looks at
the waiting as well. What is linked to the locks is in order in every state
that requests reach, whatever they met on the way, so it is told for every
state which tries are answered at once.
-/
namespace PaxosSolutions
open Lib NWGadget

/-- The lock table is sound and no session waits twice. -/
structure PFS.Linked (s : PFS) : Prop where
  sound : s.Sound
  once : (s.waits.map (·.session)).Nodup

/-- The joints in `gone` are released, and the waiting that are left wait in
the order they did. -/
structure Loses (gone : List ℕ) (s t : PFS) : Prop extends Keeps gone s t where
  queue : t.waits.Sublist s.waits

section Loses
variable {s t u : PFS} {a i : ℕ} {l m : PFSLock} {j : PFSJoint} {who : SessionId} {p : Process}
  {g g' : List ℕ} {bAbort bRead : Bool}

theorem Loses.trans (h : Loses g s t) (h' : Loses g t u) : Loses g s u :=
  ⟨h.toKeeps.trans h'.toKeeps, h'.queue.trans h.queue⟩

theorem Loses.mono (h : Loses g s t) (hg : ∀ i ∈ g, i ∈ g') : Loses g' s t :=
  ⟨h.toKeeps.mono hg, h.queue⟩

theorem Loses.refl (hs : s.Sound) : Loses [] s s :=
  ⟨⟨hs, rfl, fun _ h => h, fun _ h => h, fun _ h _ => h⟩, .refl _⟩

theorem Loses.linked (h : Loses g s t) (hs : s.Linked) : t.Linked :=
  ⟨h.sound, hs.once.sublist (h.queue.map _)⟩

theorem notify_loses (hs : s.Sound) (h : pfsLockNotify who a s = .ok t) : Loses [] s t := by
  unfold pfsLockNotify at h
  obtain ⟨l, hl, h⟩ := except_bind_ok h
  obtain ⟨out, -, h⟩ := except_bind_ok h
  cases h
  exact ⟨notify_keeps hs (lock_of_lockAt hl) _, .refl _⟩

theorem wake_sublist (ws : List LockWait) (h : pfsWake a ws s = .ok t) :
    t.waits.Sublist s.waits := by
  induction ws generalizing s with
  | nil =>
      cases h
      exact .refl _
  | cons w ws ih =>
      unfold pfsWake at h
      obtain ⟨l, -, h⟩ := except_bind_ok h
      split_ifs at h with hskip hwrite
      · exact ih h
      · cases h
        exact List.filter_sublist
      · exact (ih h).trans List.filter_sublist

theorem unlocked_loses (hs : s.Sound) (h : pfsUnlocked a s = .ok t) : Loses [] s t := by
  unfold pfsUnlocked at h
  obtain ⟨l, hl, h⟩ := except_bind_ok h
  split_ifs at h with hcnt
  · cases h
    exact .refl hs
  · obtain ⟨u, hu, h⟩ := except_bind_ok h
    have hzero : l.lCnt = 0 := not_not.mp hcnt
    have hopen : ∀ w ∈ s.waiting a, w.session ∈ s.adaptors :=
      fun w hw => hs.wopen w (mem_waiting.mp hw).1
    obtain ⟨v, m, hv, hk, -⟩ := wake_ok (s.waiting a) hs (lock_of_lockAt hl) hzero.ge hopen
    obtain rfl : u = v := Except.ok.inj (hu.symm.trans hv)
    have hwake : Loses [] s u := ⟨hk, wake_sublist _ hu⟩
    cases hw : u.waiting a with
    | nil =>
        rw [hw] at h
        cases h
        exact hwake
    | cons w ws =>
        rw [hw] at h
        exact hwake.trans (notify_loses hk.sound h)

theorem garbage_loses {freed : Bool} (hs : s.Sound) (h : pfsLockGarbage a s = .ok (freed, t)) :
    Loses [] s t := by
  unfold pfsLockGarbage at h
  obtain ⟨l, hl, h⟩ := except_bind_ok h
  split_ifs at h with htie hcnt
  · cases h
    exact ⟨removeLock_keeps hs (lock_of_lockAt hl) htie, .refl _⟩
  · cases h
    exact .refl hs

/-- A hold is released, by whatever process and from whatever index. -/
theorem unlock_loses (hs : s.Sound) (hhold : ∀ j ∈ s.joints, j.jId = i → j.hold = true)
    (h : pfsUnlock p i bAbort s = .ok t) : Loses [i] s t := by
  unfold pfsUnlock at h
  obtain ⟨j, hjoint, h⟩ := except_bind_ok h
  obtain ⟨hj, rfl⟩ := mem_of_joint hjoint
  obtain ⟨l, hl, h⟩ := except_bind_ok h
  have hl : s.lock j.jPArg = some l := lock_of_lockAt hl
  by_cases hcnt : l.lCnt = 0
  · rw [if_pos hcnt] at h
    cases h
  · rw [if_neg hcnt] at h
    obtain ⟨e, -, h⟩ := except_bind_ok h
    obtain ⟨⟨freed, u⟩, hg, h⟩ := except_bind_ok h
    have hhash : ∀ d ∈ e.elim l.lHoldHash l.lHoldHash.erase, d ∈ l.lHoldHash := by
      intro d hd
      cases e with
      | none => exact hd
      | some e => exact List.mem_of_mem_erase hd
    have hrel : ∀ o, Loses [j.jId] s { s.setLock j.jPArg { l with
        lCnt := if 0 < l.lCnt then l.lCnt - 1 else l.lCnt + 1
        lHoldHash := e.elim l.lHoldHash l.lHoldHash.erase } with
        joints := s.joints.filter fun k => k.jId ≠ j.jId, out := o } := by
      intro o
      refine ⟨release_keeps hs hj (hhold j hj rfl) hl ?_ ?_ ?_ o, .refl _⟩
      · rfl
      · rfl
      · exact hhash
    have hu : Loses [j.jId] s u := by
      by_cases hdel : bAbort = true ∧ l.lCnt < 0
      · rw [if_pos hdel] at hg
        exact (hrel _).trans ((garbage_loses (hrel _).sound hg).mono (by simp))
      · rw [if_neg hdel] at hg
        exact (hrel _).trans ((garbage_loses (hrel _).sound hg).mono (by simp))
    cases freed with
    | true =>
        cases h
        exact hu
    | false => exact hu.trans ((unlocked_loses hu.sound h).mono (by simp))

theorem unlockAll_loses (is : List ℕ) (hs : s.Sound) (hn : is.Nodup)
    (his : ∀ i ∈ is, ∃ j ∈ s.joints, j.jId = i ∧ j.hold = true)
    (h : pfsUnlockAll p bAbort is s = .ok t) : Loses is s t := by
  induction is generalizing s with
  | nil =>
      cases h
      exact .refl hs
  | cons i is ih =>
      unfold pfsUnlockAll at h
      obtain ⟨u, hu, hrun⟩ := except_bind_ok h
      obtain ⟨hi, hnd⟩ := List.nodup_cons.mp hn
      obtain ⟨j, hj, rfl, hhold⟩ := his i List.mem_cons_self
      have hfirst : Loses [j.jId] s u := by
        apply unlock_loses hs _ hu
        intro k hk hkj
        rwa [List.inj_on_of_nodup_map hs.jids hk hj hkj]
      have hrest : Loses is u t := by
        apply ih hfirst.sound hnd _ hrun
        intro k hk
        obtain ⟨d, hd, rfl, hdh⟩ := his k (List.mem_cons_of_mem _ hk)
        have hne : d.jId ∉ [j.jId] := by
          intro hdj
          exact hi (List.mem_singleton.mp hdj ▸ hk)
        exact ⟨d, hfirst.stays d hd hne, rfl, hdh⟩
      exact (hfirst.mono (by simp)).trans (hrest.mono fun _ h => List.mem_cons_of_mem _ h)

theorem eventFree_loses (hs : s.Sound) (hj : j ∈ s.joints) (hhold : j.hold = false)
    (h : pfsEventFree j.jId s = .ok t) : Loses [j.jId] s t := by
  obtain ⟨u, hu, hk⟩ := eventFree_ok hs hj hhold
  obtain rfl : t = u := Except.ok.inj (h.symm.trans hu)
  refine ⟨hk, ?_⟩
  unfold pfsEventFree at h
  obtain ⟨k, -, h⟩ := except_bind_ok h
  obtain ⟨⟨freed, v⟩, hg, h⟩ := except_bind_ok h
  cases h
  obtain ⟨-, -, -, hwaits, -⟩ := garbage_queue hg
  rw [hwaits]

theorem eventFreeAll_loses (is : List ℕ) (hs : s.Sound) (hn : is.Nodup)
    (his : ∀ i ∈ is, ∃ j ∈ s.joints, j.jId = i ∧ j.hold = false)
    (h : pfsEventFreeAll is s = .ok t) : Loses is s t := by
  induction is generalizing s with
  | nil =>
      cases h
      exact .refl hs
  | cons i is ih =>
      unfold pfsEventFreeAll at h
      obtain ⟨u, hu, hrun⟩ := except_bind_ok h
      obtain ⟨hi, hnd⟩ := List.nodup_cons.mp hn
      obtain ⟨j, hj, rfl, hhold⟩ := his i List.mem_cons_self
      have hfirst := eventFree_loses hs hj hhold hu
      have hrest : Loses is u t := by
        apply ih hfirst.sound hnd _ hrun
        intro k hk
        obtain ⟨d, hd, rfl, hdh⟩ := his k (List.mem_cons_of_mem _ hk)
        have hne : d.jId ∉ [j.jId] := by
          intro hdj
          exact hi (List.mem_singleton.mp hdj ▸ hk)
        exact ⟨d, hfirst.stays d hd hne, rfl, hdh⟩
      exact (hfirst.mono (by simp)).trans (hrest.mono fun _ h => List.mem_cons_of_mem _ h)

end Loses

/-! ### Requests -/

section Requests
variable {s t : PFS} {a : ℕ} {l : PFSLock} {who elId lId : SessionId} {name : String}
  {bRead bTry bAbort : Bool}

theorem PFS.Linked.out (hs : s.Linked) (o : List PFSOut) : ({ s with out := o } : PFS).Linked :=
  ⟨hs.sound.out o, hs.once⟩

theorem reply_linked (hs : s.Linked) (ha : s.lock a = some l) (hg : Grants bRead l.lCnt) :
    (pfsLockReply who bRead a l s).Linked :=
  ⟨reply_sound hs.sound ha hg, hs.once⟩

theorem lockWait_linked {bEmptyWait : Bool} (hs : s.Linked) (ha : s.lock a = some l)
    (hwho : who ∈ s.adaptors) (h : pfsLockWait who bRead bEmptyWait a s = .ok t) : t.Linked := by
  unfold pfsLockWait at h
  split_ifs at h with hwaits hempty
  · cases h
    exact hs
  all_goals
    have hadd : ({ s with waits := s.waits ++ [⟨who, a, bRead⟩] } : PFS).Linked := by
      refine ⟨⟨hs.sound.fresh, hs.sound.table, hs.sound.jids, hs.sound.jfresh, hs.sound.jlive,
        ?_, ?_, hs.sound.count, hs.sound.hash⟩, ?_⟩
      · intro w hw
        rcases List.mem_append.mp hw with hw | hw
        · exact hs.sound.wlive w hw
        · rw [List.mem_singleton.mp hw]
          exact ⟨l, ha⟩
      · intro w hw
        rcases List.mem_append.mp hw with hw | hw
        · exact hs.sound.wopen w hw
        · rw [List.mem_singleton.mp hw]
          exact hwho
      · rw [List.map_append, List.nodup_append]
        refine ⟨hs.once, List.nodup_singleton _, ?_⟩
        intro v hv w hw hvw
        obtain ⟨x, hx, rfl⟩ := List.mem_map.mp hv
        apply hwaits
        rw [List.any_eq_true]
        refine ⟨x, hx, ?_⟩
        rw [List.mem_singleton.mp hw] at hvw
        exact decide_eq_true hvw
  · exact (notify_loses hadd.sound h).linked hadd
  · cases h
    exact hadd

theorem lockAlloc_linked (hs : s.Linked) (name : String) : (s.lockAlloc name).2.Linked := by
  obtain ⟨hsound, -, -, -, hwaits, -⟩ := lockAlloc_sound hs.sound name
  refine ⟨hsound, ?_⟩
  rw [hwaits]
  exact hs.once

/-- What an index has found is a hold, if it is still there. -/
theorem hold_of_get (hs : s.Sound) (hl : s.lock a = some l) {p : Process} {e : SessionId × ℕ}
    (he : holdHashGet s.adaptors p l.lHoldHash = .ok (some e)) :
    ∀ j ∈ s.joints, j.jId = e.2 → j.hold = true ∧ j.jPArg = a := by
  obtain ⟨pre, post, hes, -, -⟩ := holdHashGet_some he
  apply (hs.hash a l hl e _).2
  rw [hes]
  simp

theorem lockS_linked (hs : s.Linked) (h : pfsLockS who name bRead s = .ok t) : t.Linked := by
  unfold pfsLockS at h
  split_ifs at h with hwho
  obtain ⟨-, -, -, -, -, hadaptors⟩ := lockAlloc_sound hs.sound name
  have hs' := lockAlloc_linked hs name
  rcases hau : s.lockAlloc name with ⟨a, u⟩
  rw [hau] at h hs' hadaptors
  simp only at h hs' hadaptors
  obtain ⟨l, hl, h⟩ := except_bind_ok h
  have hl : u.lock a = some l := lock_of_lockAt hl
  split_ifs at h with hreply
  · cases h
    apply reply_linked hs' hl
    rcases hreply with hnil | ⟨-, hr, hpos⟩
    · have hc := hs'.sound.count a l hl
      rw [hnil] at hc
      cases bRead
      · exact .inr ⟨rfl, hc.nil⟩
      · exact .inl ⟨rfl, hc.nil.ge⟩
    · exact .inl ⟨hr, hpos.le⟩
  · obtain ⟨r, hr, h⟩ := except_bind_ok h
    cases r with
    | none => exact lockWait_linked hs' hl (hadaptors ▸ hwho) h
    | some e =>
        obtain ⟨v, hv, h⟩ := except_bind_ok h
        have hlost : Loses [e.2] u v :=
          unlock_loses hs'.sound (fun j hj hje => (hold_of_get hs'.sound hl hr j hj hje).1) hv
        have hs'' := hlost.linked hs'
        obtain ⟨m, hm, h⟩ := except_bind_ok h
        have hm : v.lock a = some m := lock_of_lockAt hm
        split_ifs at h with hg
        · cases h
          exact reply_linked hs'' hm hg
        · exact lockWait_linked hs'' hm (hlost.adaptors ▸ hadaptors ▸ hwho) h

theorem tryLockS_linked (hs : s.Linked) (h : pfsTryLockS who name bRead bTry s = .ok t) :
    t.Linked := by
  unfold pfsTryLockS at h
  split at h
  · obtain ⟨l, -, h⟩ := except_bind_ok h
    split_ifs at h
    · exact lockS_linked hs h
    · cases h
      exact hs.out _
  · exact lockS_linked hs h

theorem unlockS_linked (hs : s.Linked) (h : pfsUnlockS who name s = .ok t) : t.Linked := by
  unfold pfsUnlockS at h
  split_ifs at h with hwho
  cases hf : (s.cLock name).bind fun a => (s.holds a).find? fun j => j.jAdaptor = who with
  | none =>
      rw [hf] at h
      cases h
      exact hs.out _
  | some j =>
      rw [hf] at h
      obtain ⟨u, hu, h⟩ := except_bind_ok h
      cases h
      obtain ⟨a, -, hfind⟩ := Option.bind_eq_some_iff.mp hf
      obtain ⟨hj, hhold, -⟩ := mem_holds.mp (List.mem_of_find?_eq_some hfind)
      have hlost : Loses [j.jId] s u := by
        apply unlock_loses hs.sound _ hu
        intro k hk hkj
        rwa [List.inj_on_of_nodup_map hs.sound.jids hk hj hkj]
      exact (hlost.linked hs).out _

theorem unlockSuperS_linked (hs : s.Linked) (h : pfsUnlockSuperS who name lId s = .ok t) :
    t.Linked := by
  unfold pfsUnlockSuperS at h
  cases hc : s.cLock name with
  | none =>
      rw [hc] at h
      cases h
      exact hs.out _
  | some a =>
      rw [hc] at h
      obtain ⟨l, hl, h⟩ := except_bind_ok h
      have hl : s.lock a = some l := lock_of_lockAt hl
      obtain ⟨r, hr, h⟩ := except_bind_ok h
      cases r with
      | none =>
          cases h
          exact hs.out _
      | some e =>
          obtain ⟨u, hu, h⟩ := except_bind_ok h
          cases h
          have hlost : Loses [e.2] s u :=
            unlock_loses hs.sound (fun j hj hje => (hold_of_get hs.sound hl hr j hj hje).1) hu
          exact (hlost.linked hs).out _

theorem eventLockS_linked {elSet elBRecall bBound : Bool} (hs : s.Linked)
    (h : pfsEventLockS who elId name elSet elBRecall bBound s = .ok t) : t.Linked := by
  unfold pfsEventLockS at h
  by_cases hid : elId ∈ s.adaptors
  · rw [if_neg (not_not.mpr hid)] at h
    cases elSet with
    | true =>
        obtain ⟨hsound, ⟨l, hl, -⟩, -⟩ := lockAlloc_sound hs.sound name
        rw [if_pos rfl] at h
        cases h
        have hadd := hsound.addJoint hl (if elBRecall then .eventLockRecall else .eventLock) elId
          (by cases elBRecall <;> rfl)
        exact ⟨hadd.out _, (lockAlloc_linked hs name).once⟩
    | false =>
        cases hc : s.cLock name with
        | none =>
            rw [hc] at h
            cases h
        | some a =>
            rw [hc] at h
            simp only [Bool.false_eq_true, if_false] at h
            cases hf : (s.events a).find? fun j => j.jAdaptor = elId with
            | none =>
                rw [hf] at h
                cases h
                exact hs.out _
            | some j =>
                rw [hf] at h
                obtain ⟨u, hu, h⟩ := except_bind_ok h
                cases h
                obtain ⟨hj, hhold, -⟩ := mem_events.mp (List.mem_of_find?_eq_some hf)
                exact ((eventFree_loses hs.sound hj hhold hu).linked hs).out _
  · rw [if_pos hid] at h
    cases bBound with
    | true => cases h
    | false =>
        cases h
        exact hs.out _

/-- The ids of some joints, each once -/
theorem nodup_filter_ids (hs : s.Sound) (q : PFSJoint → Bool) :
    ((s.joints.filter q).map (·.jId)).Nodup :=
  hs.jids.sublist (List.filter_sublist.map _)

theorem adaptorClose_linked (hs : s.Linked) (h : pfsAdaptorClose who bAbort s = .ok t) :
    t.Linked := by
  unfold pfsAdaptorClose at h
  by_cases hwho : who ∉ s.adaptors
  · rw [if_pos hwho] at h
    cases h
    exact hs
  · rw [if_neg hwho] at h
    have hs' : (s.unwait who).Linked :=
      ⟨hs.sound.unwait _, hs.once.sublist (List.filter_sublist.map _)⟩
    obtain ⟨u, hu, h⟩ := except_bind_ok h
    obtain ⟨v, hv, h⟩ := except_bind_ok h
    cases h
    obtain ⟨is, his⟩ : ∃ is, is =
        (s.joints.filter fun j => j.hold ∧ j.jAdaptor = who).reverse.map (·.jId) := ⟨_, rfl⟩
    have hheld : Loses is (s.unwait who) u := by
      rw [his]
      apply unlockAll_loses _ hs'.sound _ _ hu
      · rw [List.map_reverse, List.nodup_reverse]
        exact nodup_filter_ids hs.sound _
      · intro i hi
        obtain ⟨j, hj, rfl⟩ := List.mem_map.mp hi
        obtain ⟨hj, hq⟩ := List.mem_filter.mp (List.mem_reverse.mp hj)
        have hq : j.hold = true ∧ j.jAdaptor = who := by simpa using hq
        exact ⟨j, hj, rfl, hq.1⟩
    obtain ⟨es, hes⟩ : ∃ es, es =
        (u.joints.filter fun j => !j.hold ∧ j.jAdaptor = who).map (·.jId) := ⟨_, rfl⟩
    have hfreed : Loses es u v := by
      rw [hes]
      apply eventFreeAll_loses _ hheld.sound _ _ hv
      · exact nodup_filter_ids hheld.sound _
      · intro i hi
        obtain ⟨j, hj, rfl⟩ := List.mem_map.mp hi
        obtain ⟨hj, hq⟩ := List.mem_filter.mp hj
        have hq : j.hold = false ∧ j.jAdaptor = who := by simpa using hq
        exact ⟨j, hj, rfl, hq.1⟩
    have hsv := hfreed.sound
    refine ⟨⟨hsv.fresh, hsv.table, hsv.jids, hsv.jfresh, hsv.jlive, hsv.wlive, ?_, hsv.count,
      hsv.hash⟩, (hfreed.linked (hheld.linked hs')).once⟩
    intro w hw
    have hws : w ∈ (s.unwait who).waits := hheld.waits w (hfreed.waits w hw)
    have hne : w.session ≠ who := by simpa using (List.mem_filter.mp hws).2
    exact (List.mem_erase_of_ne hne).mpr (hsv.wopen w hw)

theorem step_linked {op : PFSOp} (hs : s.Linked) (h : pfsStep s op = .ok t) : t.Linked := by
  cases op with
  | «open» who =>
      cases h
      unfold pfsAdaptorOpen
      split_ifs
      · exact hs
      · have hsound := hs.sound
        refine ⟨⟨hsound.fresh, hsound.table, hsound.jids, hsound.jfresh, hsound.jlive,
          hsound.wlive, ?_, hsound.count, hsound.hash⟩, hs.once⟩
        intro w hw
        exact List.mem_cons_of_mem _ (hsound.wopen w hw)
  | lock who name bRead bTry => exact tryLockS_linked hs h
  | unlock who name => exact unlockS_linked hs h
  | unlockSuper who name lId => exact unlockSuperS_linked hs h
  | eventLock who elId name elSet elBRecall bBound => exact eventLockS_linked hs h
  | close who bAbort => exact adaptorClose_linked hs h

/-- Every state that requests reach is in order. -/
theorem run_linked (ops : List PFSOp) (h : run pfsStep {} ops = .ok s) : s.Linked :=
  run_invariant (C := fun _ _ => True) (fun _ _ _ hs _ h => step_linked hs h)
    ⟨empty_sound, List.nodup_nil⟩ Along.trivial h

end Requests

/-! ### What a try meets -/

/-- `HashGet` under `p` goes by keys of open sessions only. -/
def keysMet (adaptors : List SessionId) (p : Process) : List SessionId → Bool
  | [] => true
  | k :: ks =>
      if holdHashCode k.process ≠ holdHashCode p then keysMet adaptors p ks
      else k ∈ adaptors ∧ (k.process = p ∨ keysMet adaptors p ks)

theorem keysMet_iff {adaptors : List SessionId} {p : Process} (es : List (SessionId × ℕ)) :
    keysMet adaptors p (es.map Prod.fst) = true ↔ ∃ r, holdHashGet adaptors p es = .ok r := by
  induction es with
  | nil => simp [keysMet, holdHashGet]
  | cons e es ih =>
      rw [List.map_cons]
      unfold keysMet holdHashGet
      by_cases hcode : holdHashCode e.1.process ≠ holdHashCode p
      · rw [if_pos hcode, if_pos hcode, ih]
      · rw [if_neg hcode, if_neg hcode]
        by_cases hopen : e.1 ∈ adaptors
        · rw [if_neg (not_not.mpr hopen)]
          by_cases hp : e.1.process = p
          · simp [hopen, hp]
          · simp [hopen, hp, ih]
        · simp [hopen]

/-- The readers that wait for the lock at `a` are let in, and join the items `es`
of its index. Then the first that waits on is told of, by what the index has. -/
def PFS.WakesReader (s : PFS) (a : ℕ) (es : List (SessionId × ℕ)) : Prop :=
  (∀ w ∈ (s.waiting a).head?, w.aLockRead = true) ∧
    ∀ w ∈ ((s.waiting a).filter fun w => !w.aLockRead).head?, ∀ j ∈ s.events a,
      w.session.process ≠ j.jAdaptor.process → j.jType = .eventLockRecall →
        keysMet s.adaptors j.jAdaptor.process (es.map Prod.fst ++
          ((s.waiting a).filter fun w => w.aLockRead).map (·.session)) = true

/-- The index has a hold by the process of `who`, which is given back, and no
writer is let in by that. -/
def PFS.GivesWay (s : PFS) (who : SessionId) (a : ℕ) (l : PFSLock) : Prop :=
  ∃ e, holdHashGet s.adaptors who.process l.lHoldHash = .ok (some e) ∧
    (∃ j ∈ s.joints, j.jId = e.2) ∧ (1 < l.lCnt ∨ s.WakesReader a (l.lHoldHash.erase e))

/-- Who tries to read what is read and awaited holds it already, and gives way
to readers at most. -/
def PFS.Triable (s : PFS) (who : SessionId) (name : String) (bRead : Bool) : Prop :=
  bRead = true → ∀ a l, s.cLock name = some a → s.lock a = some l → 0 < l.lCnt →
    s.waiting a ≠ [] → s.GivesWay who a l

/-- The try is answered: by a hold that is new and in the count, or by `EBUSY`
with nothing else done. No session waits that did not wait before. -/
def PFS.Tried (who : SessionId) (name : String) (bRead : Bool) (s t : PFS) : Prop :=
  (∀ w ∈ t.waits, w ∈ s.waits) ∧
    ((∃ a l j o, t.cLock name = some a ∧ t.lock a = some l ∧ Counted l.lCnt (t.holds a) ∧
        j ∈ t.holds a ∧ j ∉ s.joints ∧ j.jAdaptor = who ∧
        j.jType = (if bRead then .lockReadHold else .lockWriteHold) ∧
        t.out = s.out ++ o ++ [.lockRpl who l.lVer false]) ∨
      ∃ a l, s.cLock name = some a ∧ s.lock a = some l ∧ t = s.send (.lockRpl who l.lVer true))

/-- A read hold is given back, of which the index had `e`. -/
def PFSLock.released (l : PFSLock) (e : SessionId × ℕ) : PFSLock :=
  { l with lCnt := l.lCnt - 1, lHoldHash := l.lHoldHash.erase e }

/-- The read hold `j` of the lock `l` is given back. -/
def PFS.released (s : PFS) (j : PFSJoint) (l : PFSLock) (e : SessionId × ℕ) : PFS :=
  { s.setLock j.jPArg (l.released e) with joints := s.joints.filter fun k => k.jId ≠ j.jId }

section Tries
variable {s t u : PFS} {a : ℕ} {l m : PFSLock} {j : PFSJoint} {who : SessionId} {name : String}
  {bRead : Bool} {e : SessionId × ℕ}

theorem lockEvents_iff (js : List PFSJoint) (hcnt : l.lCnt ≠ 0) (adaptors : List SessionId) :
    (∃ out, pfsLockEvents adaptors who l js = .ok out) ↔
      ∀ j ∈ js, who.process ≠ j.jAdaptor.process → j.jType = .eventLockRecall →
        keysMet adaptors j.jAdaptor.process (l.lHoldHash.map Prod.fst) = true := by
  induction js with
  | nil => simp [pfsLockEvents]
  | cons j js ih =>
      rw [List.forall_mem_cons, ← ih, pfsLockEvents]
      by_cases hsame : who.process = j.jAdaptor.process
      · simp [hsame]
      · rw [if_neg hsame, if_neg hcnt]
        by_cases hrecall : j.jType = .eventLockRecall
        · simp only [hrecall, if_true, hsame, ne_eq, not_false_eq_true, true_implies]
          rw [keysMet_iff]
          constructor
          · rintro ⟨out, h⟩
            obtain ⟨found, hfound, h⟩ := except_bind_ok h
            obtain ⟨rest, hrest, -⟩ := except_bind_ok h
            exact ⟨⟨found, hfound⟩, rest, hrest⟩
          · rintro ⟨⟨found, hfound⟩, rest, hrest⟩
            simp only [bind, Except.bind]
            rw [hfound, hrest]
            simp only
            split_ifs
            · exact ⟨_, rfl⟩
            · exact ⟨_, rfl⟩
        · simp only [hrecall, if_false, false_implies, implies_true, true_and]
          constructor
          · rintro ⟨out, h⟩
            obtain ⟨found, -, h⟩ := except_bind_ok h
            obtain ⟨rest, hrest, -⟩ := except_bind_ok h
            exact ⟨rest, hrest⟩
          · rintro ⟨rest, hrest⟩
            simp only [bind, Except.bind]
            rw [hrest]
            exact ⟨_, rfl⟩

/-- Readers come first, so all readers are let in and no writer is. -/
theorem wake_readers (ws : List LockWait) (hl : s.lock a = some l) (hpos : 0 ≤ l.lCnt)
    (hfirst : l.lCnt = 0 → ∀ w ∈ ws.head?, w.aLockRead = true) :
    ∃ t m, pfsWake a ws s = .ok t ∧ t.lock a = some m ∧ m.lName = l.lName ∧ 0 ≤ m.lCnt ∧
      (ws ≠ [] → 0 < m.lCnt) ∧ (0 < l.lCnt → 0 < m.lCnt) ∧
      m.lHoldHash.map Prod.fst =
        l.lHoldHash.map Prod.fst ++ (ws.filter fun w => w.aLockRead).map (·.session) ∧
      t.events a = s.events a ∧ t.adaptors = s.adaptors ∧
      t.waits = s.waits.filter fun v =>
        v.session ∉ (ws.filter fun w => w.aLockRead).map (·.session) := by
  induction ws generalizing s l with
  | nil => exact ⟨s, l, rfl, hl, rfl, hpos, by simp, id, by simp, rfl, rfl, by simp⟩
  | cons w ws ih =>
      have heq : pfsWake a (w :: ws) s =
          if w.aLockRead = false ∧ l.lCnt ≠ 0 then pfsWake a ws s
          else
            let s := pfsLockReply w.session w.aLockRead a l
              { s with waits := s.waits.filter fun v => v.session ≠ w.session }
            if w.aLockRead = false then .ok s else pfsWake a ws s := by
        rw [pfsWake, lockAt_ok hl]
        rfl
      rw [heq]
      cases hread : w.aLockRead with
      | false =>
          have hne : l.lCnt ≠ 0 := by
            intro h0
            rw [hfirst h0 w rfl] at hread
            cases hread
          rw [if_pos ⟨rfl, hne⟩]
          obtain ⟨t, m, ht, hm, hname, h0, -, hlt, hhash, hrest⟩ :=
            ih hl hpos fun h0 => absurd h0 hne
          rw [List.filter_cons_of_neg (by simp [hread])]
          exact ⟨t, m, ht, hm, hname, h0, fun _ => hlt (by omega), hlt, hhash, hrest⟩
      | true =>
          rw [if_neg (by simp)]
          obtain ⟨k, hk, hkname, hkcnt, hkhash⟩ := reply_lock w.session true a l
            { s with waits := s.waits.filter fun v => v.session ≠ w.session }
          rw [if_pos rfl] at hkcnt
          obtain ⟨t, m, ht, hm, hname, h0, -, hlt, hhash, hevents, hadaptors, hwaits⟩ :=
            ih (l := k) (s := pfsLockReply w.session true a l
              { s with waits := s.waits.filter fun v => v.session ≠ w.session })
              (by rw [hk, Function.update_self]) (by omega) (by omega)
          refine ⟨t, m, ht, hm, hname.trans hkname, h0, fun _ => hlt (by omega),
            fun _ => hlt (by omega), ?_, hevents, hadaptors, ?_⟩
          · rw [hhash, hkhash, List.filter_cons_of_pos hread]
            simp
          · rw [hwaits, List.filter_cons_of_pos hread]
            change (s.waits.filter fun v => v.session ≠ w.session).filter _ = _
            rw [List.filter_filter]
            apply List.filter_congr
            intro v _
            simp [Bool.and_comm]

theorem notify_eq (hl : s.lock a = some l) (h : pfsLockNotify who a s = .ok t) :
    ∃ out, t = { s.setLock a { l with lEventSeq := seqInc l.lEventSeq } with
      out := s.out ++ out } := by
  unfold pfsLockNotify at h
  obtain ⟨k, hk, h⟩ := except_bind_ok h
  obtain rfl : l = k := Option.some.inj (hl.symm.trans (lock_of_lockAt hk))
  obtain ⟨out, -, h⟩ := except_bind_ok h
  exact ⟨out, (Except.ok.inj h).symm⟩

theorem notify_iff (hl : s.lock a = some l) (hcnt : l.lCnt ≠ 0) :
    (∃ t, pfsLockNotify who a s = .ok t) ↔
      ∀ j ∈ s.events a, who.process ≠ j.jAdaptor.process → j.jType = .eventLockRecall →
        keysMet s.adaptors j.jAdaptor.process (l.lHoldHash.map Prod.fst) = true := by
  rw [← lockEvents_iff (l := { l with lEventSeq := seqInc l.lEventSeq }) _ hcnt]
  unfold pfsLockNotify
  rw [lockAt_ok hl]
  simp only [bind, Except.bind]
  constructor
  · rintro ⟨t, h⟩
    obtain ⟨out, hout, -⟩ := except_bind_ok h
    exact ⟨out, hout⟩
  · rintro ⟨out, hout⟩
    rw [hout]
    exact ⟨_, rfl⟩

/-- Of those who wait for the lock, the readers are the sessions of the readers. -/
theorem waiting_filter (hs : s.Linked) (ht : t.waits = s.waits.filter fun v =>
      v.session ∉ ((s.waiting a).filter fun w => w.aLockRead).map (·.session)) :
    t.waiting a = (s.waiting a).filter fun w => !w.aLockRead := by
  unfold PFS.waiting
  rw [ht, List.filter_filter, List.filter_filter]
  apply List.filter_congr
  intro v hv
  rw [Bool.and_comm]
  by_cases ha : v.aPLockWait = a
  · simp only [ha, decide_true, Bool.and_true]
    have hiff : v.session ∈ ((s.waiting a).filter fun w => w.aLockRead).map (·.session) ↔
        v.aLockRead = true := by
      constructor
      · intro h
        obtain ⟨w, hw, hvw⟩ := List.mem_map.mp h
        obtain ⟨hw, hread⟩ := List.mem_filter.mp hw
        rwa [← List.inj_on_of_nodup_map hs.once (mem_waiting.mp hw).1 hv hvw]
      · intro h
        exact List.mem_map_of_mem (List.mem_filter.mpr ⟨mem_waiting.mpr ⟨hv, ha⟩, h⟩)
    cases hread : v.aLockRead with
    | true => simp [hiff.mpr hread]
    | false =>
        have hnot := mt hiff.mp (by simp [hread])
        simp [hnot]
  · simp [ha]

/-- When the count is zero and a reader is first, the wake-up goes through
where the index can be gone through. -/
theorem unlocked_readers (hs : s.Linked) (hl : s.lock a = some l) (hzero : l.lCnt = 0)
    (hw : s.waiting a ≠ []) (hfirst : ∀ w ∈ (s.waiting a).head?, w.aLockRead = true) :
    ((∃ t, pfsUnlocked a s = .ok t) ↔ s.WakesReader a l.lHoldHash) ∧
      ∀ t, pfsUnlocked a s = .ok t → ∃ m, t.lock a = some m ∧ m.lName = l.lName ∧ 0 < m.lCnt := by
  obtain ⟨u, m, hu, hm, hname, -, hpos, -, hhash, hevents, hadaptors, hwaits⟩ :=
    wake_readers (s.waiting a) hl hzero.ge fun _ => hfirst
  have hmpos := hpos hw
  have hnone : u.waiting a = [] → pfsUnlocked a s = .ok u := by
    intro hwait
    rw [pfsUnlocked, lockAt_ok hl]
    simp only [bind, Except.bind]
    rw [if_neg (not_not.mpr hzero), hu]
    simp only [hwait]
  have hnotify : ∀ v vs, u.waiting a = v :: vs →
      pfsUnlocked a s = pfsLockNotify v.session a u := by
    intro v vs hwait
    rw [pfsUnlocked, lockAt_ok hl]
    simp only [bind, Except.bind]
    rw [if_neg (not_not.mpr hzero), hu]
    simp only [hwait]
  have hwu := waiting_filter hs hwaits
  unfold PFS.WakesReader
  cases hrest : (s.waiting a).filter fun w => !w.aLockRead with
  | nil =>
      rw [hnone (hwu.trans hrest)]
      constructor
      · constructor
        · intro _
          exact ⟨hfirst, by simp⟩
        · intro _
          exact ⟨u, rfl⟩
      · intro t ht
        cases ht
        exact ⟨m, hm, hname, hmpos⟩
  | cons v vs =>
      rw [hnotify v vs (hwu.trans hrest)]
      constructor
      · rw [notify_iff hm hmpos.ne', hhash, hevents, hadaptors]
        constructor
        · intro h
          refine ⟨hfirst, ?_⟩
          intro w hw
          cases hw
          exact h
        · intro h
          exact h.2 v rfl
      · intro t ht
        obtain ⟨out, rfl⟩ := notify_eq hm ht
        exact ⟨_, Function.update_self _ _ _, hname, hmpos⟩

/-- When the count is zero and a writer is first, the writer is let in. -/
theorem unlocked_writer {w : LockWait} {ws : List LockWait} (hl : s.lock a = some l)
    (hzero : l.lCnt = 0) (hw : s.waiting a = w :: ws) (hwrite : w.aLockRead = false)
    (h : pfsUnlocked a s = .ok t) :
    (∃ m, t.lock a = some m ∧ m.lCnt = -1) ∧
      t.waits = s.waits.filter (fun v => v.session ≠ w.session) ∧
      ∃ j, t.joints = j :: s.joints ∧ j.jType = .lockWriteHold := by
  obtain ⟨k, hk, -, hkcnt, -⟩ := reply_lock w.session false a l
    { s with waits := s.waits.filter fun v => v.session ≠ w.session }
  have hwake : pfsWake a (s.waiting a) s = .ok (pfsLockReply w.session false a l
      { s with waits := s.waits.filter fun v => v.session ≠ w.session }) := by
    rw [hw, pfsWake, lockAt_ok hl]
    simp only [bind, Except.bind, hwrite]
    rw [if_neg (by simp [hzero])]
    rfl
  unfold pfsUnlocked at h
  rw [lockAt_ok hl] at h
  simp only [bind, Except.bind] at h
  rw [if_neg (not_not.mpr hzero), hwake] at h
  simp only at h
  have hcnt : k.lCnt = -1 := by
    rw [hkcnt, hzero]
    rfl
  split at h
  · cases h
    exact ⟨⟨k, by rw [hk, Function.update_self], hcnt⟩, rfl, _, rfl, rfl⟩
  · obtain ⟨out, rfl⟩ := notify_eq (l := k) (by rw [hk, Function.update_self]) h
    exact ⟨⟨_, Function.update_self _ _ _, hcnt⟩, rfl, _, rfl, rfl⟩

/-! ### Giving back -/

theorem released_lock : (s.released j l e).lock j.jPArg = some (l.released e) :=
  Function.update_self _ _ _

theorem released_loses (hs : s.Sound) (hj : j ∈ s.joints) (hhold : j.hold = true)
    (hl : s.lock j.jPArg = some l) (hpos : 0 < l.lCnt) : Loses [j.jId] s (s.released j l e) := by
  refine ⟨release_keeps hs hj hhold hl ?_ ?_ ?_ _, .refl _⟩
  · rfl
  · rw [if_pos hpos]
    rfl
  · exact fun _ h => List.mem_of_mem_erase h

/-- Who waits and who is told of a lock is not changed by a hold that goes. -/
theorem released_wakesReader (hs : s.Sound) (hj : j ∈ s.joints) (hhold : j.hold = true)
    (es : List (SessionId × ℕ)) : (s.released j l e).WakesReader a es ↔ s.WakesReader a es := by
  have hevents : (s.released j l e).events a = s.events a := by
    unfold PFS.events PFS.released
    rw [List.filter_filter]
    apply List.filter_congr
    intro k hk
    by_cases hkj : k.jId = j.jId
    · rw [List.inj_on_of_nodup_map hs.jids hk hj hkj]
      simp [hhold]
    · simp [hkj]
  unfold PFS.WakesReader
  rw [hevents]
  rfl

theorem unlock_awaited (hs : s.Sound) (hj : j ∈ s.joints) (hl : s.lock j.jPArg = some l)
    (he : holdHashGet s.adaptors who.process l.lHoldHash = .ok (some e)) (hpos : 0 < l.lCnt)
    (hw : s.waiting j.jPArg ≠ []) :
    pfsUnlock who.process j.jId false s = pfsUnlocked j.jPArg (s.released j l e) := by
  have hgarbage : pfsLockGarbage j.jPArg (s.released j l e) = .ok (false, s.released j l e) := by
    unfold pfsLockGarbage
    rw [lockAt_ok released_lock]
    simp only [bind, Except.bind]
    rw [if_neg]
    rintro ⟨h, -⟩
    exact hw h
  unfold pfsUnlock
  rw [joint_ok hs hj]
  simp only [bind, Except.bind]
  rw [lockAt_ok hl]
  simp only [hpos.ne', if_false, he, hpos, if_true]
  change (pfsLockGarbage j.jPArg (s.released j l e)).bind _ = _
  rw [hgarbage]
  rfl

theorem reply_tried {o : List PFSOut} (hs : s.Sound) (hu : u.Linked) (hc : u.cLock name = some a)
    (hl : u.lock a = some l) (hg : Grants bRead l.lCnt) (hw : ∀ w ∈ u.waits, w ∈ s.waits)
    (hnext : s.next ≤ u.next) (ho : u.out = s.out ++ o) :
    PFS.Tried who name bRead s (pfsLockReply who bRead a l u) := by
  let j : PFSJoint := ⟨u.next, if bRead then .lockReadHold else .lockWriteHold, who, a⟩
  refine ⟨hw, .inl ⟨a, _, j, o, hc, Function.update_self _ _ _, ?_, ?_, ?_, ?_, ?_, ?_⟩⟩
  · exact (reply_sound hu.sound hl hg).count a _ (Function.update_self _ _ _)
  · refine mem_holds.mpr ⟨List.mem_cons_self, ?_, rfl⟩
    cases bRead <;> rfl
  · intro hj
    have hlt : u.next < s.next := hs.jfresh _ hj
    omega
  · rfl
  · rfl
  · rw [← ho]
    rfl

/-- A request that does not get as far as a reply is not answered. -/
theorem lockWait_not_tried (hjoints : ∀ j ∈ u.joints, j ∉ s.joints → j.jType ≠ .lockReadHold)
    (hbusy : ∀ v, u ≠ s.send (.lockRpl who v true))
    (hself : (∀ w ∈ u.waits, w.session ≠ who) → ⟨who, a, true⟩ ∉ s.waits)
    (h : pfsLockWait who true false a u = .ok t) : ¬ PFS.Tried who name true s t := by
  rintro ⟨hwaits, htried⟩
  unfold pfsLockWait at h
  by_cases hany : (u.waits.any fun w => w.session = who) = true
  · rw [if_pos hany] at h
    cases h
    rcases htried with ⟨b, k, j, o, -, -, -, hj, hnew, -, hty, -⟩ | ⟨b, k, -, -, hsend⟩
    · exact hjoints j (mem_holds.mp hj).1 hnew hty
    · exact hbusy _ hsend
  · rw [if_neg hany] at h
    cases h
    apply hself
    · intro w hw hwho
      apply hany
      rw [List.any_eq_true]
      exact ⟨w, hw, decide_eq_true hwho⟩
    · exact hwaits _ (List.mem_append_right _ (List.mem_singleton_self _))

end Tries

/-! ### Which tries are answered -/

section Awaited
variable {s t : PFS} {a : ℕ} {l : PFSLock} {who : SessionId} {name : String}

/-- A read lock is asked for that is read and awaited. -/
theorem lockS_awaited (hs : s.Linked) (hwho : who ∈ s.adaptors) (hc : s.cLock name = some a)
    (hl : s.lock a = some l) (hpos : 0 < l.lCnt) (hw : s.waiting a ≠ []) :
    pfsLockS who name true s = (holdHashGet s.adaptors who.process l.lHoldHash).bind fun e =>
      match e with
      | none => pfsLockWait who true false a s
      | some e => (pfsUnlock who.process e.2 false s).bind fun t => (t.lockAt a).bind fun m =>
          if 0 ≤ m.lCnt then .ok (pfsLockReply who true a m t)
          else pfsLockWait who true false a t := by
  have halloc : s.lockAlloc name = (a, s) := by
    unfold PFS.lockAlloc
    rw [hc]
  have hempty : (s.waiting a).isEmpty = false := by simpa using hw
  rw [lockS_eq hwho halloc hl, if_neg]
  · simp only [hempty, true_and, Bool.true_eq_false, false_and, or_false] <;> rfl
  · rintro (hnil | ⟨h, -⟩)
    · have hcounted := hs.sound.count a l hl
      rw [hnil] at hcounted
      exact hpos.ne' hcounted.nil
    · rw [hempty] at h
      cases h

theorem lockS_gives_way (hs : s.Linked) (hwho : who ∈ s.adaptors) (hc : s.cLock name = some a)
    (hl : s.lock a = some l) (hpos : 0 < l.lCnt) (hw : s.waiting a ≠ [])
    (hgive : s.GivesWay who a l) :
    ∃ t, pfsLockS who name true s = .ok t ∧ PFS.Tried who name true s t := by
  obtain ⟨e, he, ⟨j, hj, hje⟩, hwake⟩ := hgive
  obtain ⟨hhold, rfl⟩ := hold_of_get hs.sound hl he j hj hje
  have hlost := released_loses (e := e) hs.sound hj hhold hl hpos
  -- the holds of others are left, or readers are let in
  obtain ⟨u, m, hu, hm, hname, hcnt⟩ : ∃ u m, pfsUnlock who.process j.jId false s = .ok u ∧
      u.lock j.jPArg = some m ∧ m.lName = l.lName ∧ 0 ≤ m.lCnt := by
    rw [unlock_awaited hs.sound hj hl he hpos hw]
    by_cases hone : 1 < l.lCnt
    · have hleft : 0 < (l.released e).lCnt := by
        change 0 < l.lCnt - 1
        omega
      refine ⟨s.released j l e, l.released e, ?_, released_lock, rfl, hleft.le⟩
      unfold pfsUnlocked
      rw [lockAt_ok released_lock]
      simp only [bind, Except.bind]
      rw [if_pos hleft.ne']
    · have hreaders := hwake.resolve_left hone
      have hzero : (l.released e).lCnt = 0 := by
        change l.lCnt - 1 = 0
        omega
      obtain ⟨hiff, hlock⟩ :=
        unlocked_readers (hlost.linked hs) released_lock hzero hw hreaders.1
      obtain ⟨u, hu⟩ := hiff.mpr ((released_wakesReader hs.sound hj hhold _).mpr hreaders)
      obtain ⟨m, hm, hname, hmpos⟩ := hlock u hu
      exact ⟨u, m, hu, hm, hname, hmpos.le⟩
  have hholds : ∀ k ∈ s.joints, k.jId = j.jId → k.hold = true := by
    intro k hk hkj
    rwa [List.inj_on_of_nodup_map hs.sound.jids hk hj hkj]
  have hloses := unlock_loses hs.sound hholds hu
  obtain ⟨-, -, -, hserved, -⟩ := unlock_queue hs.sound hs.once hu hholds
  obtain ⟨-, o, -, ho, -⟩ := hserved.news
  refine ⟨pfsLockReply who true j.jPArg m u, ?_, ?_⟩
  · rw [lockS_awaited hs hwho hc hl hpos hw, he]
    simp only [Except.bind]
    rw [← hje, hu]
    simp only
    rw [lockAt_ok hm]
    simp only
    rw [if_pos hcnt]
  · refine reply_tried hs.sound (hloses.linked hs) ?_ hm (.inl ⟨rfl, hcnt⟩) hloses.waits
      hserved.next ho
    rw [hloses.sound.table]
    obtain ⟨k, hk, hkn⟩ := (hs.sound.table name _).mp hc
    cases hl.symm.trans hk
    exact ⟨m, hm, hname.trans hkn⟩

theorem gives_way_of_tried (hs : s.Linked) (hwho : who ∈ s.adaptors) (hc : s.cLock name = some a)
    (hl : s.lock a = some l) (hpos : 0 < l.lCnt) (hw : s.waiting a ≠ [])
    (h : pfsLockS who name true s = .ok t) (htried : PFS.Tried who name true s t) :
    s.GivesWay who a l := by
  rw [lockS_awaited hs hwho hc hl hpos hw] at h
  obtain ⟨r, hr, h⟩ := except_bind_ok h
  cases r with
  | none =>
      exfalso
      refine lockWait_not_tried ?_ ?_ ?_ h htried
      · exact fun j hj hnew => absurd hj hnew
      · intro v hv
        have hout : s.out = s.out ++ [.lockRpl who v true] := congrArg PFS.out hv
        simp at hout
      · exact fun hnone hmem => hnone _ hmem rfl
  | some e =>
      obtain ⟨u, hu, h⟩ := except_bind_ok h
      obtain ⟨k, hk, h⟩ := except_bind_ok h
      have hk : u.lock a = some k := lock_of_lockAt hk
      have hfound := hold_of_get hs.sound hl hr
      obtain ⟨j, hj, hje, -⟩ := unlock_queue hs.sound hs.once hu fun j hj hje => (hfound j hj hje).1
      obtain ⟨hhold, rfl⟩ := hfound j hj hje
      refine ⟨e, hr, ⟨j, hj, hje⟩, ?_⟩
      by_cases hone : 1 < l.lCnt
      · exact .inl hone
      · right
        have hzero : (l.released e).lCnt = 0 := by
          change l.lCnt - 1 = 0
          omega
        rw [← hje, unlock_awaited hs.sound hj hl hr hpos hw] at hu
        have hlost := released_loses (e := e) hs.sound hj hhold hl hpos
        rw [← released_wakesReader (e := e) (l := l) hs.sound hj hhold]
        by_cases hfirst : ∀ w ∈ (s.waiting j.jPArg).head?, w.aLockRead = true
        · exact (unlocked_readers (hlost.linked hs) released_lock hzero hw hfirst).1.mp ⟨u, hu⟩
        · -- a writer takes the lock, and the try is left to wait
          exfalso
          obtain ⟨w, ws, hws⟩ := List.exists_cons_of_ne_nil hw
          have hwrite : w.aLockRead = false := by simpa [hws] using hfirst
          obtain ⟨⟨m, hm, hmcnt⟩, huwaits, i, hi, hity⟩ :=
            unlocked_writer released_lock hzero hws hwrite hu
          obtain rfl : m = k := Option.some.inj (hm.symm.trans hk)
          rw [if_neg (by omega)] at h
          refine lockWait_not_tried ?_ ?_ ?_ h htried
          · intro d hd hnew
            rw [hi] at hd
            rcases List.mem_cons.mp hd with rfl | hd
            · rw [hity]
              simp
            · exact absurd (List.mem_filter.mp hd).1 hnew
          · intro v hv
            rw [hv] at hm
            cases hl.symm.trans hm
            omega
          · intro hnone hmem
            have hwmem : w ∈ s.waits := (mem_waiting.mp (hws ▸ List.mem_cons_self)).1
            by_cases hself : w.session = who
            · have heq := List.inj_on_of_nodup_map hs.once hwmem hmem hself
              rw [heq] at hwrite
              cases hwrite
            · apply hnone ⟨who, j.jPArg, true⟩ _ rfl
              rw [huwaits]
              exact List.mem_filter.mpr ⟨hmem, by simpa using Ne.symm hself⟩

/-- A lock that is not there is given. -/
theorem lockS_new {bRead : Bool} (hs : s.Linked) (hwho : who ∈ s.adaptors)
    (hc : s.cLock name = none) :
    ∃ t, pfsLockS who name bRead s = .ok t ∧ PFS.Tried who name bRead s t := by
  have halloc := lockAlloc_linked hs name
  obtain ⟨-, ⟨l, hl, hname, -⟩, -, -, hwaits, -⟩ := lockAlloc_sound hs.sound name
  have hheld := lockAlloc_held hs.sound name
  have hout : (s.lockAlloc name).2.out = s.out ++ [] ∧ s.next ≤ (s.lockAlloc name).2.next := by
    unfold PFS.lockAlloc
    rw [hc]
    exact ⟨(List.append_nil _).symm, Nat.le_succ _⟩
  rcases hau : s.lockAlloc name with ⟨a, u⟩
  rw [hau] at halloc hl hwaits hheld hout
  have hnil : u.holds a = [] := by
    by_contra hne
    have h := (hheld hne).1
    rw [hc] at h
    cases h
  have hzero : l.lCnt = 0 := by
    have h := halloc.sound.count a l hl
    rw [hnil] at h
    exact h.nil
  refine ⟨pfsLockReply who bRead a l u, ?_, ?_⟩
  · rw [lockS_eq hwho hau hl, if_pos (.inl hnil)]
  · refine reply_tried hs.sound halloc ?_ hl ?_ ?_ hout.2 hout.1
    · exact (halloc.sound.table name a).mpr ⟨l, hl, hname⟩
    · cases bRead
      · exact .inr ⟨rfl, hzero⟩
      · exact .inl ⟨rfl, hzero.ge⟩
    · rw [hwaits]
      exact fun _ h => h

/-- A lock that is free, or read and not awaited, is given. -/
theorem lockS_free {bRead : Bool} (hs : s.Linked) (hwho : who ∈ s.adaptors)
    (hc : s.cLock name = some a) (hl : s.lock a = some l) (hg : Grants bRead l.lCnt)
    (hreply : s.holds a = [] ∨ ((s.waiting a).isEmpty ∧ bRead ∧ 0 < l.lCnt)) :
    ∃ t, pfsLockS who name bRead s = .ok t ∧ PFS.Tried who name bRead s t := by
  have halloc : s.lockAlloc name = (a, s) := by
    unfold PFS.lockAlloc
    rw [hc]
  refine ⟨pfsLockReply who bRead a l s, ?_, ?_⟩
  · rw [lockS_eq hwho halloc hl, if_pos hreply]
  · exact reply_tried hs.sound hs hc hl hg (fun _ h => h) le_rfl (List.append_nil _).symm

/-- A try for a lock that is there goes by its count. -/
theorem tryLockS_eq {bRead : Bool} (hc : s.cLock name = some a) (hl : s.lock a = some l) :
    pfsTryLockS who name bRead true s =
      if (bRead ∧ 0 ≤ l.lCnt) ∨ (bRead = false ∧ l.lCnt = 0) then pfsLockS who name bRead s
      else .ok (s.send (.lockRpl who l.lVer true)) := by
  unfold pfsTryLockS
  rw [hc]
  simp only [bind, Except.bind]
  rw [lockAt_ok hl]

/-- What a try meets is one lock. -/
theorem triable_iff (hc : s.cLock name = some a) (hl : s.lock a = some l) (bRead : Bool) :
    s.Triable who name bRead ↔
      (bRead = true → 0 < l.lCnt → s.waiting a ≠ [] → s.GivesWay who a l) := by
  constructor
  · intro h hread
    exact h hread a l hc hl
  · intro h hread b m hb hm
    cases hc.symm.trans hb
    cases hl.symm.trans hm
    exact h hread

end Awaited

/-- In every state that requests reach, a try by an open session is answered at
once, by a hold or by `EBUSY`, unless readers hold the lock that it would read,
somebody waits for it, and the requester's process has no hold to give back or
lets in a writer by giving it back. -/
theorem tryLock_answered (ops : List PFSOp) {s : PFS} (hs : run pfsStep {} ops = .ok s)
    {who : SessionId} (hwho : who ∈ s.adaptors) (name : String) (bRead : Bool) :
    (∃ t, pfsStep s (.lock who name bRead true) = .ok t ∧ PFS.Tried who name bRead s t) ↔
      s.Triable who name bRead := by
  have hlinked := run_linked ops hs
  change (∃ t, pfsTryLockS who name bRead true s = .ok t ∧ _) ↔ _
  cases hc : s.cLock name with
  | none =>
      have htry : pfsTryLockS who name bRead true s = pfsLockS who name bRead s := by
        unfold pfsTryLockS
        rw [hc]
      rw [htry]
      constructor
      · intro _ _ a l ha
        rw [hc] at ha
        cases ha
      · intro _
        exact lockS_new hlinked hwho hc
  | some a =>
      obtain ⟨l, hl, -⟩ := (hlinked.sound.table name a).mp hc
      have hcounted := hlinked.sound.count a l hl
      rw [tryLockS_eq hc hl, triable_iff hc hl]
      by_cases hg : (bRead = true ∧ 0 ≤ l.lCnt) ∨ (bRead = false ∧ l.lCnt = 0)
      · rw [if_pos hg]
        by_cases hreply : s.holds a = [] ∨ ((s.waiting a).isEmpty ∧ bRead ∧ 0 < l.lCnt)
        · constructor
          · intro _ _ hpos hw
            rcases hreply with hnil | ⟨hempty, -⟩
            · rw [hnil] at hcounted
              exact absurd hcounted.nil hpos.ne'
            · exact absurd (List.isEmpty_iff.mp hempty) hw
          · intro _
            exact lockS_free hlinked hwho hc hl hg hreply
        · -- the lock is held and may be shared: it is read, and awaited
          have hne : l.lCnt ≠ 0 := by
            intro h0
            rw [h0] at hcounted
            exact hreply (.inl hcounted.eq_nil)
          obtain ⟨rfl, hpos⟩ : bRead = true ∧ 0 < l.lCnt := by
            rcases hg with ⟨h, h0⟩ | ⟨-, h0⟩
            · exact ⟨h, by omega⟩
            · exact absurd h0 hne
          have hw : s.waiting a ≠ [] := by
            intro hnil
            exact hreply (.inr ⟨by simp [hnil], rfl, hpos⟩)
          constructor
          · rintro ⟨t, ht, htried⟩ - - -
            exact gives_way_of_tried hlinked hwho hc hl hpos hw ht htried
          · intro h
            exact lockS_gives_way hlinked hwho hc hl hpos hw (h rfl hpos hw)
      · rw [if_neg hg]
        constructor
        · intro _ hread hpos
          exact absurd (.inl ⟨hread, hpos.le⟩) hg
        · intro _
          exact ⟨_, rfl, fun _ h => h, .inr ⟨a, l, hc, hl, rfl⟩⟩

/-- A reader tries for what another reads, with nobody waiting. -/
theorem tryLock_answered_reading :
    ∃ s t, run pfsStep {} [.open (sessionOf 1 1), .open (sessionOf 2 1),
        .lock (sessionOf 1 1) "a" true false] = .ok s ∧
      pfsStep s (.lock (sessionOf 2 1) "a" true true) = .ok t ∧
      PFS.Tried (sessionOf 2 1) "a" true s t := by
  have hrun : ∃ s, run pfsStep {} [.open (sessionOf 1 1), .open (sessionOf 2 1),
      .lock (sessionOf 1 1) "a" true false] = .ok s ∧ sessionOf 2 1 ∈ s.adaptors ∧
      s.Triable (sessionOf 2 1) "a" true := by
    refine ⟨_, rfl, List.mem_cons_self, ?_⟩
    intro _ a l ha hl _ hw
    cases ha
    exact absurd rfl hw
  obtain ⟨s, hs, hwho, htriable⟩ := hrun
  obtain ⟨t, ht⟩ := (tryLock_answered _ hs hwho "a" true).mpr htriable
  exact ⟨s, t, hs, ht⟩

/-- A reader tries for what another reads while a writer waits, and is put
behind the writer. -/
theorem tryLock_not_answered :
    ¬ ∀ ops s who name bRead, run pfsStep {} ops = .ok s → who ∈ s.adaptors →
      ∃ t, pfsStep s (.lock who name bRead true) = .ok t ∧ PFS.Tried who name bRead s t := by
  intro h
  obtain ⟨t, ht, hw, -⟩ := h [.open (sessionOf 1 1), .open (sessionOf 2 1), .open (sessionOf 3 1),
    .lock (sessionOf 1 1) "a" true false, .lock (sessionOf 2 1) "a" false false] _
    (sessionOf 3 1) "a" true rfl List.mem_cons_self
  cases ht
  have hwait : (⟨sessionOf 3 1, 0, true⟩ : LockWait) = ⟨sessionOf 2 1, 0, false⟩ := by
    apply List.mem_singleton.mp
    apply hw
    exact List.mem_cons_of_mem _ (List.mem_singleton_self _)
  cases hwait

end PaxosSolutions
