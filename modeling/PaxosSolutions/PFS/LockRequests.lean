import PaxosSolutions.PFS.LockTable

/-!
# Requests on locks

Which requests keep the lock table, and a session that locks twice, which does
not.
-/
namespace PaxosSolutions
open Lib NWGadget

/-- The request gets as far as the index: the lock is held, is not refused to a
try, and is not shared with the readers that hold it. -/
def Relocks (bRead bTry : Bool) (a : ℕ) (l : PFSLock) (s : PFS) : Prop :=
  s.holds a ≠ [] ∧ ¬ (s.waiting a = [] ∧ bRead = true ∧ 0 < l.lCnt) ∧
    (bTry = true → Grants bRead l.lCnt)

/-- No request meets in an index what is freed: the keys it compares, the joint
it finds, and the lock once it has given back what the process held. -/
def Usable (s : PFS) : PFSOp → Prop
  | .lock who name bRead bTry =>
      ∀ a l, s.cLock name = some a → s.lock a = some l → Relocks bRead bTry a l s →
        s.KeysLive a ∧
          ∀ e, holdHashGet s.adaptors who.process l.lHoldHash = .ok (some e) →
            (∃ j ∈ s.joints, j.jId = e.2) ∧
              ((∃ k ∈ s.joints, k.jPArg = a ∧ k.jId ≠ e.2) ∨ s.waiting a ≠ [])
  | .unlock who name =>
      ∀ a, s.cLock name = some a → (∃ j ∈ s.holds a, j.jAdaptor = who) → s.KeysLive a
  | .unlockSuper _ name lId =>
      ∀ a l, s.cLock name = some a → s.lock a = some l →
        s.KeysLive a ∧
          ∀ e, holdHashGet s.adaptors lId.process l.lHoldHash = .ok (some e) →
            ∃ j ∈ s.joints, j.jId = e.2
  | .close who _ => ∀ j ∈ s.joints, j.hold = true → j.jAdaptor = who → s.KeysLive j.jPArg
  | _ => True

/-- What a request comes to: a sound state, or a failure of another kind than
a use of freed memory or a wrong count. -/
def Safe (r : Except PFSFault PFS) : Prop :=
  match r with
  | .ok t => t.Sound
  | .error e => e ≠ .useAfterFree ∧ e ≠ .assertCnt

section Requests
variable {s : PFS} {l : PFSLock} {who elId lId : SessionId} {name : String}
  {bRead bTry bAbort : Bool}

theorem Safe.of_ok {r : Except PFSFault PFS} (h : ∃ t, r = .ok t ∧ t.Sound) : Safe r := by
  obtain ⟨t, rfl, ht⟩ := h
  exact ht

theorem Safe.of_error {e : PFSFault} (h : e ≠ .useAfterFree) (h' : e ≠ .assertCnt) :
    Safe (.error e) := ⟨h, h'⟩

/-- A lock that is held is not new. -/
theorem lockAlloc_held (hs : s.Sound) (name : String)
    (h : (s.lockAlloc name).2.holds (s.lockAlloc name).1 ≠ []) :
    s.cLock name = some (s.lockAlloc name).1 ∧ (s.lockAlloc name).2 = s := by
  unfold PFS.lockAlloc at h ⊢
  cases hc : s.cLock name with
  | some a => exact ⟨rfl, rfl⟩
  | none =>
      exfalso
      rw [hc] at h
      apply h
      apply List.eq_nil_iff_forall_not_mem.mpr
      intro j hj
      obtain ⟨hj, -, ha⟩ := mem_holds.mp hj
      obtain ⟨k, hk⟩ := hs.jlive j hj
      exact absurd (ha ▸ hs.fresh _ k hk) (lt_irrefl _)

/-- `PFSLockS` once it has the lock. -/
theorem lockS_eq {a : ℕ} {u : PFS} (hwho : who ∈ s.adaptors) (hau : s.lockAlloc name = (a, u))
    (hl : u.lock a = some l) :
    pfsLockS who name bRead s =
      if u.holds a = [] ∨ ((u.waiting a).isEmpty ∧ bRead ∧ 0 < l.lCnt) then
        .ok (pfsLockReply who bRead a l u)
      else
        (holdHashGet u.adaptors who.process l.lHoldHash).bind fun e =>
          match e with
          | none => pfsLockWait who bRead (u.waiting a).isEmpty a u
          | some e => (pfsUnlock who.process e.2 false u).bind fun t =>
              (t.lockAt a).bind fun l =>
                if (bRead ∧ 0 ≤ l.lCnt) ∨ (bRead = false ∧ l.lCnt = 0) then
                  .ok (pfsLockReply who bRead a l t)
                else pfsLockWait who bRead (u.waiting a).isEmpty a t := by
  unfold pfsLockS
  rw [if_neg (not_not.mpr hwho), hau]
  change (u.lockAt a).bind _ = _
  rw [lockAt_ok hl]
  simp only [Except.bind]
  split_ifs
  · rfl
  · rfl

theorem lockS_ok (hs : s.Sound) (hwho : who ∈ s.adaptors)
    (hop : ∀ a l, s.cLock name = some a → s.lock a = some l → Relocks bRead false a l s →
      s.KeysLive a ∧
        ∀ e, holdHashGet s.adaptors who.process l.lHoldHash = .ok (some e) →
          (∃ j ∈ s.joints, j.jId = e.2) ∧
            ((∃ k ∈ s.joints, k.jPArg = a ∧ k.jId ≠ e.2) ∨ s.waiting a ≠ [])) :
    ∃ t, pfsLockS who name bRead s = .ok t ∧ t.Sound := by
  obtain ⟨hs', ⟨l, hl, -, -⟩, -, -, -, -⟩ := lockAlloc_sound hs name
  have hheld := lockAlloc_held hs name
  rcases hau : s.lockAlloc name with ⟨a, u⟩
  rw [hau] at hs' hl hheld
  rw [lockS_eq hwho hau hl]
  by_cases hreply : u.holds a = [] ∨ ((u.waiting a).isEmpty ∧ bRead ∧ 0 < l.lCnt)
  · rw [if_pos hreply]
    refine ⟨_, rfl, reply_sound hs' hl ?_⟩
    rcases hreply with hnil | ⟨-, hr, hpos⟩
    · have hc := hs'.count a l hl
      rw [hnil] at hc
      cases bRead
      · exact .inr ⟨rfl, hc.nil⟩
      · exact .inl ⟨rfl, hc.nil.ge⟩
    · exact .inl ⟨hr, hpos.le⟩
  · rw [if_neg hreply]
    have hne : u.holds a ≠ [] := fun h => hreply (.inl h)
    obtain ⟨hc, rfl⟩ := hheld hne
    obtain ⟨hkeys, hfound⟩ := hop a l hc hl ⟨hne, by
      rintro ⟨hw, hr, hpos⟩
      exact hreply (.inr ⟨by simpa using hw, hr, hpos⟩), by simp⟩
    have hcnt : l.lCnt ≠ 0 := by
      obtain ⟨j, hj⟩ := List.exists_mem_of_ne_nil _ hne
      exact (hs.count a l hl).ne_zero hj
    obtain ⟨e, he, hemem⟩ := holdHashGet_ok (p := who.process) (hkeys l hl)
    rw [he]
    cases e with
    | none => exact lockWait_ok hs hl hwho (fun _ => hcnt) hkeys
    | some e =>
        obtain ⟨⟨j, hj, hje⟩, htie⟩ := hfound e he
        obtain ⟨hjh, rfl⟩ := (hs.hash a l hl e (hemem e rfl).1).2 j hj hje
        obtain ⟨t, ht, hk, hlive⟩ := unlock_ok who.process false hs hj hjh hkeys
        obtain ⟨m, hm⟩ := hlive (by rwa [hje])
        rw [hje] at ht
        simp only [Except.bind]
        rw [ht]
        simp only
        rw [lockAt_ok hm]
        simp only
        by_cases hg : (bRead = true ∧ 0 ≤ m.lCnt) ∨ (bRead = false ∧ m.lCnt = 0)
        · rw [if_pos hg]
          exact ⟨_, rfl, reply_sound hk.sound hm hg⟩
        · rw [if_neg hg]
          apply lockWait_ok hk.sound hm (hk.adaptors ▸ hwho) _ (hk.keys _ hkeys)
          intro _ hzero
          apply hg
          cases bRead
          · exact .inr ⟨rfl, hzero⟩
          · exact .inl ⟨rfl, hzero.ge⟩

theorem unlockS_ok (hs : s.Sound) (hwho : who ∈ s.adaptors)
    (hop : ∀ a, s.cLock name = some a → (∃ j ∈ s.holds a, j.jAdaptor = who) → s.KeysLive a) :
    ∃ t, pfsUnlockS who name s = .ok t ∧ t.Sound := by
  unfold pfsUnlockS
  rw [if_neg (not_not.mpr hwho)]
  cases hf : (s.cLock name).bind fun a => (s.holds a).find? fun j => j.jAdaptor = who with
  | none => exact ⟨_, rfl, hs.out _⟩
  | some j =>
      obtain ⟨a, ha, hfind⟩ := Option.bind_eq_some_iff.mp hf
      have hjh := List.mem_of_find?_eq_some hfind
      have hjw : j.jAdaptor = who := by simpa using List.find?_some hfind
      obtain ⟨hj, hhold, rfl⟩ := mem_holds.mp hjh
      obtain ⟨t, ht, hk, -⟩ := unlock_ok who.process false hs hj hhold
        (hop _ ha ⟨j, hjh, hjw⟩)
      simp only [bind, Except.bind]
      rw [ht]
      exact ⟨_, rfl, hk.sound.out _⟩

theorem unlockSuperS_ok (hs : s.Sound)
    (hop : ∀ a l, s.cLock name = some a → s.lock a = some l →
      s.KeysLive a ∧
        ∀ e, holdHashGet s.adaptors lId.process l.lHoldHash = .ok (some e) →
          ∃ j ∈ s.joints, j.jId = e.2) :
    ∃ t, pfsUnlockSuperS who name lId s = .ok t ∧ t.Sound := by
  unfold pfsUnlockSuperS
  cases hc : s.cLock name with
  | none => exact ⟨_, rfl, hs.out _⟩
  | some a =>
      obtain ⟨l, hl, -⟩ := (hs.table name a).mp hc
      obtain ⟨hkeys, hfound⟩ := hop a l hc hl
      obtain ⟨e, he, hemem⟩ := holdHashGet_ok (p := lId.process) (hkeys l hl)
      simp only [bind, Except.bind]
      rw [lockAt_ok hl]
      simp only
      rw [he]
      cases e with
      | none => exact ⟨_, rfl, hs.out _⟩
      | some e =>
          obtain ⟨j, hj, hje⟩ := hfound e he
          obtain ⟨hjh, rfl⟩ := (hs.hash a l hl e (hemem e rfl).1).2 j hj hje
          obtain ⟨t, ht, hk, -⟩ := unlock_ok lId.process false hs hj hjh hkeys
          rw [hje] at ht
          simp only
          rw [ht]
          exact ⟨_, rfl, hk.sound.out _⟩

/-- The event of a lock that is there, for a client that the service knows. -/
theorem eventLockS_ok {elSet elBRecall bBound : Bool} (hs : s.Sound)
    (hset : elId ∈ s.adaptors → elSet = false → s.cLock name ≠ none)
    (hbound : elId ∉ s.adaptors → bBound = false) :
    ∃ t, pfsEventLockS who elId name elSet elBRecall bBound s = .ok t ∧ t.Sound := by
  unfold pfsEventLockS
  by_cases hid : elId ∈ s.adaptors
  · rw [if_neg (not_not.mpr hid)]
    cases elSet with
    | true =>
        obtain ⟨hs', ⟨l, hl, -, -⟩, -⟩ := lockAlloc_sound hs name
        have hadd := hs'.addJoint hl (if elBRecall then .eventLockRecall else .eventLock) elId
          (by cases elBRecall <;> rfl)
        exact ⟨_, rfl, hadd.out _⟩
    | false =>
        obtain ⟨a, hc⟩ := Option.ne_none_iff_exists'.mp (hset hid rfl)
        simp only [Bool.false_eq_true, if_false, hc]
        cases hf : (s.events a).find? fun j => j.jAdaptor = elId with
        | none => exact ⟨_, rfl, hs.out _⟩
        | some j =>
            obtain ⟨hj, hhold, -⟩ := mem_events.mp (List.mem_of_find?_eq_some hf)
            obtain ⟨t, ht, hk⟩ := eventFree_ok hs hj hhold
            simp only [bind, Except.bind]
            rw [ht]
            exact ⟨_, rfl, hk.sound.out _⟩
  · rw [if_pos hid, hbound hid]
    exact ⟨_, rfl, hs.out _⟩

theorem adaptorClose_ok (hs : s.Sound)
    (hop : ∀ j ∈ s.joints, j.hold = true → j.jAdaptor = who → s.KeysLive j.jPArg) :
    ∃ t, pfsAdaptorClose who bAbort s = .ok t ∧ t.Sound := by
  unfold pfsAdaptorClose
  by_cases hwho : who ∈ s.adaptors
  · rw [if_neg (not_not.mpr hwho)]
    have hs' := hs.unwait fun w => w.session ≠ who
    have hsub (q : PFSJoint → Bool) (js : List PFSJoint) (hn : (js.map (·.jId)).Nodup) :
        ((js.filter q).map (·.jId)).Nodup := hn.sublist (List.filter_sublist.map _)
    obtain ⟨t, ht, hk⟩ := unlockAll_ok who.process bAbort
      ((s.joints.filter fun j => j.hold ∧ j.jAdaptor = who).reverse.map (·.jId)) hs'
      (by rw [List.map_reverse, List.nodup_reverse]; exact hsub _ _ hs.jids) (by
        intro i hi
        obtain ⟨j, hj, rfl⟩ := List.mem_map.mp hi
        obtain ⟨hj, hq⟩ := List.mem_filter.mp (List.mem_reverse.mp hj)
        have hq : j.hold = true ∧ j.jAdaptor = who := by simpa using hq
        exact ⟨j, hj, rfl, hq.1, hop j hj hq.1 hq.2⟩)
    obtain ⟨u, hu, hku⟩ := eventFreeAll_ok
      ((t.joints.filter fun j => !j.hold ∧ j.jAdaptor = who).map (·.jId)) hk.sound
      (hsub _ _ hk.sound.jids) (by
        intro i hi
        obtain ⟨j, hj, rfl⟩ := List.mem_map.mp hi
        obtain ⟨hj, hq⟩ := List.mem_filter.mp hj
        have hq : j.hold = false ∧ j.jAdaptor = who := by simpa using hq
        exact ⟨j, hj, rfl, hq.1⟩)
    simp only [bind, Except.bind]
    rw [ht]
    simp only
    rw [hu]
    have hsu := hku.sound
    refine ⟨_, rfl, hsu.fresh, hsu.table, hsu.jids, hsu.jfresh, hsu.jlive, hsu.wlive, ?_,
      hsu.count, hsu.hash⟩
    intro w hw
    have hwt := hk.waits w (hku.waits w hw)
    have hne : w.session ≠ who := by simpa using (List.mem_filter.mp hwt).2
    exact (List.mem_erase_of_ne hne).mpr (hsu.wopen w hw)
  · rw [if_pos hwho]
    exact ⟨s, rfl, hs⟩

theorem tryLockS_ok (hs : s.Sound) (hwho : who ∈ s.adaptors)
    (hop : ∀ a l, s.cLock name = some a → s.lock a = some l → Relocks bRead bTry a l s →
      s.KeysLive a ∧
        ∀ e, holdHashGet s.adaptors who.process l.lHoldHash = .ok (some e) →
          (∃ j ∈ s.joints, j.jId = e.2) ∧
            ((∃ k ∈ s.joints, k.jPArg = a ∧ k.jId ≠ e.2) ∨ s.waiting a ≠ [])) :
    ∃ t, pfsTryLockS who name bRead bTry s = .ok t ∧ t.Sound := by
  unfold pfsTryLockS
  cases bTry with
  | false => exact lockS_ok hs hwho hop
  | true =>
      cases hc : s.cLock name with
      | none =>
          apply lockS_ok hs hwho
          intro a l ha
          rw [hc] at ha
          cases ha
      | some a =>
          obtain ⟨l, hl, -⟩ := (hs.table name a).mp hc
          simp only [bind, Except.bind]
          rw [lockAt_ok hl]
          simp only
          by_cases hg : (bRead = true ∧ 0 ≤ l.lCnt) ∨ (bRead = false ∧ l.lCnt = 0)
          · rw [if_pos hg]
            apply lockS_ok hs hwho
            intro b m hb hm hre
            cases hc.symm.trans hb
            cases hl.symm.trans hm
            exact hop a l hc hl ⟨hre.1, hre.2.1, fun _ => hg⟩
          · rw [if_neg hg]
            exact ⟨_, rfl, hs.out _⟩

/-- A session that has no adaptor is not given a lock. -/
theorem tryLockS_closed (hs : s.Sound) (hwho : who ∉ s.adaptors) :
    Safe (pfsTryLockS who name bRead bTry s) := by
  have hlock : Safe (pfsLockS who name bRead s) := by
    unfold pfsLockS
    rw [if_pos hwho]
    exact .of_error (by simp) (by simp)
  unfold pfsTryLockS
  cases bTry with
  | false => exact hlock
  | true =>
      cases hc : s.cLock name with
      | none => exact hlock
      | some a =>
          obtain ⟨l, hl, -⟩ := (hs.table name a).mp hc
          simp only [bind, Except.bind]
          rw [lockAt_ok hl]
          simp only
          split_ifs
          · exact hlock
          · exact hs.out _

theorem eventLockS_safe {elSet elBRecall bBound : Bool} (hs : s.Sound) :
    Safe (pfsEventLockS who elId name elSet elBRecall bBound s) := by
  by_cases hset : elId ∈ s.adaptors → elSet = false → s.cLock name ≠ none
  · by_cases hbound : elId ∉ s.adaptors → bBound = false
    · exact .of_ok (eventLockS_ok hs hset hbound)
    · push Not at hbound
      unfold pfsEventLockS
      rw [if_pos hbound.1, if_pos (by simpa using hbound.2)]
      exact .of_error (by simp) (by simp)
  · push Not at hset
    obtain ⟨hid, rfl, hc⟩ := hset
    unfold pfsEventLockS
    simp only [hc]
    rw [if_neg (not_not.mpr hid)]
    exact .of_error (by simp) (by simp)

/-- A request keeps the lock table, and fails neither by a use of what is freed
nor by a wrong count. -/
theorem step_safe {op : PFSOp} (hs : s.Sound) (hop : Usable s op) : Safe (pfsStep s op) := by
  cases op with
  | «open» who =>
      unfold pfsStep pfsAdaptorOpen
      simp only
      by_cases h : who ∈ s.adaptors
      · rw [if_pos h]
        exact hs
      · rw [if_neg h]
        refine ⟨hs.fresh, hs.table, hs.jids, hs.jfresh, hs.jlive, hs.wlive, ?_, hs.count, hs.hash⟩
        intro w hw
        exact List.mem_cons_of_mem _ (hs.wopen w hw)
  | lock who name bRead bTry =>
      by_cases hwho : who ∈ s.adaptors
      · exact .of_ok (tryLockS_ok hs hwho hop)
      · exact tryLockS_closed hs hwho
  | unlock who name =>
      by_cases hwho : who ∈ s.adaptors
      · exact .of_ok (unlockS_ok hs hwho hop)
      · unfold pfsStep pfsUnlockS
        simp only
        rw [if_pos hwho]
        exact .of_error (by simp) (by simp)
  | unlockSuper who name lId => exact .of_ok (unlockSuperS_ok hs hop)
  | eventLock who elId name elSet elBRecall bBound => exact eventLockS_safe hs
  | close who bAbort => exact .of_ok (adaptorClose_ok hs hop)

end Requests

/-- One lock a name, held and awaited locks in the table, counts that fit, and
a write hold that is the only hold. -/
structure PFS.Exclusive (s : PFS) : Prop where
  one : ∀ a b l m, s.lock a = some l → s.lock b = some m → l.lName = m.lName → a = b
  held : ∀ j ∈ s.joints, ∃ l, s.lock j.jPArg = some l ∧ s.cLock l.lName = some j.jPArg
  awaited : ∀ w ∈ s.waits, ∃ l, s.lock w.aPLockWait = some l ∧ s.cLock l.lName = some w.aPLockWait
  count : ∀ a l, s.lock a = some l → Counted l.lCnt (s.holds a)
  alone : ∀ a, ∀ j ∈ s.holds a, j.jType = .lockWriteHold → ∀ k ∈ s.holds a, k = j

theorem PFS.Sound.exclusive {s : PFS} (hs : s.Sound) : s.Exclusive := by
  constructor
  · intro a b l m ha hb h
    exact hs.unique ha hb h
  · intro j hj
    obtain ⟨l, hl⟩ := hs.jlive j hj
    exact ⟨l, hl, (hs.table _ _).mpr ⟨l, hl, rfl⟩⟩
  · intro w hw
    obtain ⟨l, hl⟩ := hs.wlive w hw
    exact ⟨l, hl, (hs.table _ _).mpr ⟨l, hl, rfl⟩⟩
  · exact hs.count
  · intro a j hj hwrite k hk
    obtain ⟨hjs, -, rfl⟩ := mem_holds.mp hj
    obtain ⟨l, hl⟩ := hs.jlive j hjs
    rcases hs.count _ l hl with ⟨-, hread⟩ | ⟨-, i, hi, -⟩
    · have h := hread j hj
      rw [hwrite] at h
      cases h
    · rw [hi] at hj hk
      rw [List.mem_singleton.mp hj, List.mem_singleton.mp hk]

theorem empty_sound : ({} : PFS).Sound := by
  constructor
  · intro a l h
    cases h
  · intro n a
    constructor
    · intro h
      cases h
    · rintro ⟨l, h, -⟩
      cases h
  · exact List.nodup_nil
  · simp
  · simp
  · simp
  · simp
  · intro a l h
    cases h
  · intro a l h
    cases h

/-- Requests that meet nothing freed in an index keep the lock table. -/
theorem lockTable_exclusive (ops : List PFSOp) (hops : Along pfsStep Usable {} ops) :
    (∀ t, run pfsStep {} ops = .ok t → t.Exclusive) ∧
      run pfsStep {} ops ≠ .error .useAfterFree ∧ run pfsStep {} ops ≠ .error .assertCnt := by
  have hok : ∀ s op t, s.Sound → Usable s op → pfsStep s op = .ok t → t.Sound := by
    intro s op t hs hop ht
    have h := step_safe hs hop
    rwa [ht] at h
  have herr : ∀ s op e, s.Sound → Usable s op → pfsStep s op = .error e →
      e ≠ .useAfterFree ∧ e ≠ .assertCnt := by
    intro s op e hs hop he
    have h := step_safe hs hop
    rwa [he] at h
  refine ⟨?_, ?_, ?_⟩
  · intro t ht
    exact (run_invariant hok empty_sound hops ht).exclusive
  · intro h
    exact (run_error hok herr empty_sound hops h).1 rfl
  · intro h
    exact (run_error hok herr empty_sound hops h).2 rfl

theorem lockTable_exclusive_unlock :
    Along pfsStep Usable {} [.open (sessionOf 1 1), .lock (sessionOf 1 1) "a" false false,
        .unlock (sessionOf 1 1) "a"] ∧
      run pfsStep {} [.open (sessionOf 1 1), .lock (sessionOf 1 1) "a" false false,
        .unlock (sessionOf 1 1) "a"] ≠ .error .useAfterFree := by
  have hops : Along pfsStep Usable {} [.open (sessionOf 1 1),
      .lock (sessionOf 1 1) "a" false false, .unlock (sessionOf 1 1) "a"] := by
    refine ⟨trivial, fun s hs => ?_⟩
    cases hs
    refine ⟨?_, fun t ht => ?_⟩
    · intro a l ha
      cases ha
    · cases ht
      refine ⟨?_, fun _ _ => trivial⟩
      intro a ha _ l hl e he
      cases ha
      cases hl
      rw [List.mem_singleton.mp he]
      exact List.mem_cons_self
  exact ⟨hops, (lockTable_exclusive _ hops).2.1⟩

/-- A session that locks twice what nobody else is linked to goes on with a
lock that its own unlocking has freed. -/
theorem lockTable_not_exclusive :
    ¬ ∀ ops : List PFSOp, (∀ t, run pfsStep {} ops = .ok t → t.Exclusive) ∧
      run pfsStep {} ops ≠ .error .useAfterFree ∧ run pfsStep {} ops ≠ .error .assertCnt := by
  intro h
  apply (h [.open (sessionOf 1 1), .lock (sessionOf 1 1) "a" false false,
    .lock (sessionOf 1 1) "a" false false]).2.1
  rfl

end PaxosSolutions
