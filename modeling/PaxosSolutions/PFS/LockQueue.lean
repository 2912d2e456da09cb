import PaxosSolutions.PFS.HoldIndex

/-!
# The queues of locks

A session that waits is let in by the unlocking that brings the count to zero,
and no other way. So the first to wait must be kept out by those who hold,
whoever comes and goes. A session that is let in gets the reply to its request
and a hold, one for one.
-/
namespace PaxosSolutions
open Lib NWGadget

/-- A reply to a request of `who` for a lock -/
def PFSOut.lockReply (who : SessionId) : PFSOut → Bool
  | .lockRpl s _ _ => s = who
  | _ => false

/-- The reply gives the lock. -/
def PFSOut.grants (who : SessionId) : PFSOut → Bool
  | .lockRpl s _ false => s = who
  | _ => false

def PFSJoint.holdOf (who : SessionId) (j : PFSJoint) : Bool := j.hold ∧ j.jAdaptor = who

namespace PFS

/-- The first that waits for the lock at `a` is kept out: a lock that is
awaited is held, and for writing if the first waits to read. -/
def Blocked (s : PFS) (a : ℕ) : Prop :=
  ∀ l w ws, s.lock a = some l → s.waiting a = w :: ws →
    l.lCnt ≠ 0 ∧ (w.aLockRead = true → l.lCnt < 0)

/-- How often `who` waits -/
def awaits (s : PFS) (who : SessionId) : ℕ := s.waits.countP fun w => w.session = who

/-- Nothing but the lock at `a` and what is linked to it is other. -/
structure Frame (a : ℕ) (s t : PFS) : Prop where
  lock : ∀ b, b ≠ a → t.lock b = s.lock b
  waiting : ∀ b, b ≠ a → t.waiting b = s.waiting b
  holds : ∀ b, b ≠ a → t.holds b = s.holds b

/-- The joints in `gone` are released. What is sent is a reply for every session
that waits no more and for `n` requests besides, and a hold for every reply that
gives the lock. -/
structure Served (n : SessionId → ℕ) (gone : List ℕ) (s t : PFS) : Prop where
  next : s.next ≤ t.next
  once : (s.waits.map (·.session)).Nodup → (t.waits.map (·.session)).Nodup
  news : ∃ news o, t.joints = news ++ s.joints.filter (fun j => j.jId ∉ gone) ∧
    t.out = s.out ++ o ∧ (∀ j ∈ news, s.next ≤ j.jId ∧ j.hold = true) ∧ ∀ who,
      o.countP (PFSOut.grants who) = news.countP (PFSJoint.holdOf who) ∧
      o.countP (PFSOut.lockReply who) + t.awaits who = s.awaits who + n who

end PFS
open PFS

section Queues
variable {s t u : PFS} {a b i : ℕ} {l m : PFSLock} {w : LockWait} {who : SessionId}
  {g g' : List ℕ} {n n' : SessionId → ℕ} {bRead : Bool}

theorem PFS.Frame.refl : Frame a s s := ⟨fun _ _ => rfl, fun _ _ => rfl, fun _ _ => rfl⟩

theorem PFS.Frame.trans (h : Frame a s t) (h' : Frame a t u) : Frame a s u where
  lock b hb := (h'.lock b hb).trans (h.lock b hb)
  waiting b hb := (h'.waiting b hb).trans (h.waiting b hb)
  holds b hb := (h'.holds b hb).trans (h.holds b hb)

theorem PFS.Frame.blocked (h : Frame a s t) (hb : b ≠ a) (hs : s.Blocked b) : t.Blocked b := by
  intro l w ws hl hw
  rw [h.lock b hb] at hl
  rw [h.waiting b hb] at hw
  exact hs l w ws hl hw

/-- No session is replied to. -/
theorem PFS.Served.quiet (hj : t.joints = s.joints.filter fun j => j.jId ∉ g)
    (hw : t.waits = s.waits) (hn : s.next ≤ t.next) {o : List PFSOut} (ho : t.out = s.out ++ o)
    (hq : ∀ x ∈ o, ∀ who, x.lockReply who = false) : Served 0 g s t where
  next := hn
  once h := by rwa [hw]
  news := by
    refine ⟨[], o, hj, ho, by simp, ?_⟩
    intro who
    have hrpl : o.countP (PFSOut.lockReply who) = 0 := by
      rw [List.countP_eq_zero]
      intro x hx
      simpa using hq x hx who
    have hgr : o.countP (PFSOut.grants who) = 0 := by
      rw [List.countP_eq_zero]
      intro x hx
      have h := hq x hx who
      cases x with
      | lockRpl v k busy => cases busy <;> simp_all [PFSOut.lockReply, PFSOut.grants]
      | _ => simp [PFSOut.grants]
    unfold awaits
    rw [hrpl, hgr, hw]
    simp

theorem PFS.Served.of_eq (hj : t.joints = s.joints) (hw : t.waits = s.waits) (hn : s.next ≤ t.next)
    {o : List PFSOut} (ho : t.out = s.out ++ o)
    (hq : ∀ x ∈ o, ∀ who, x.lockReply who = false) : Served 0 [] s t :=
  .quiet (by simp [hj]) hw hn ho hq

/-- What is released later was there before. -/
theorem PFS.Served.trans (h : Served n g s t) (h' : Served n' g' t u) (hg : ∀ i ∈ g', i < s.next) :
    Served (n + n') (g ++ g') s u where
  next := h.next.trans h'.next
  once hs := h'.once (h.once hs)
  news := by
    obtain ⟨news, o, hj, ho, hnew, hcount⟩ := h.news
    obtain ⟨news', o', hj', ho', hnew', hcount'⟩ := h'.news
    have hkeep : news.filter (fun j => j.jId ∉ g') = news := by
      rw [List.filter_eq_self]
      intro j hjn
      have hle := (hnew j hjn).1
      simpa using fun hi => absurd (hg j.jId hi) (by omega)
    refine ⟨news' ++ news, o ++ o', ?_, ?_, ?_, ?_⟩
    · rw [hj', hj, List.filter_append, hkeep, List.filter_filter, List.append_assoc]
      congr 3
      funext j
      simp [Bool.and_comm]
    · rw [ho', ho, List.append_assoc]
    · intro j hjn
      rcases List.mem_append.mp hjn with hjn | hjn
      · exact ⟨h.next.trans (hnew' j hjn).1, (hnew' j hjn).2⟩
      · exact hnew j hjn
    · intro who
      obtain ⟨h1, h2⟩ := hcount who
      obtain ⟨h3, h4⟩ := hcount' who
      rw [List.countP_append, List.countP_append, List.countP_append, Pi.add_apply]
      omega

/-- After an unlocking or a wake-up nothing more is asked for. -/
theorem PFS.Served.then (h : Served n g s t) (h' : Served 0 [] t u) : Served n g s u := by
  have h := h.trans h' (by simp)
  rwa [add_zero, List.append_nil] at h

/-- A lock is given. -/
theorem reply_served (ws : List LockWait)
    (honce : (s.waits.map (·.session)).Nodup → (ws.map (·.session)).Nodup)
    (hn : ∀ v, (if v = who then 1 else 0) + ws.countP (fun w => w.session = v) =
      s.awaits v + n v) :
    Served n [] s (pfsLockReply who bRead a l { s with waits := ws }) where
  next := Nat.le_succ _
  once := honce
  news := by
    let j : PFSJoint := ⟨s.next, if bRead then .lockReadHold else .lockWriteHold, who, a⟩
    refine ⟨[j], _, ?_, rfl, ?_, ?_⟩
    · rw [List.filter_eq_self.mpr (by simp)]
      rfl
    · intro k hk
      rw [List.mem_singleton.mp hk]
      refine ⟨le_rfl, ?_⟩
      cases bRead <;> rfl
    · intro v
      have h := hn v
      constructor
      · cases bRead <;> simp [j, PFSOut.grants, PFSJoint.holdOf, PFSJoint.hold]
      · rw [← h]
        congr 1
        by_cases hv : v = who
        · simp [PFSOut.lockReply, hv]
        · simp [PFSOut.lockReply, hv, Ne.symm hv]

theorem reply_frame (ws : List LockWait)
    (hws : ∀ b, b ≠ a → ws.filter (fun w => w.aPLockWait = b) = s.waiting b) :
    Frame a s (pfsLockReply who bRead a l { s with waits := ws }) where
  lock b hb := Function.update_of_ne hb _ _
  waiting b hb := hws b hb
  holds b hb := by
    change List.filter _ (_ :: s.joints) = _
    rw [List.filter_cons_of_neg (by simp [Ne.symm hb])]
    rfl

theorem lockEvents_quiet {adaptors : List SessionId} (js : List PFSJoint) {o : List PFSOut}
    (h : pfsLockEvents adaptors who l js = .ok o) : ∀ x ∈ o, ∀ v, x.lockReply v = false := by
  induction js generalizing o with
  | nil =>
      cases h
      simp
  | cons j js ih =>
      have hput : ∀ found : Option (SessionId × ℕ), (pfsLockEvents adaptors who l js >>= fun out =>
          if found = none then .ok out
          else .ok (.event j.jAdaptor l.lName l.lVer l.lEventSeq :: out)) = .ok o →
          ∀ x ∈ o, ∀ v, x.lockReply v = false := by
        intro found h
        obtain ⟨out, hout, h⟩ := except_bind_ok h
        split_ifs at h with hfound
        · cases h
          exact ih hout
        · cases h
          intro x hx
          rcases List.mem_cons.mp hx with rfl | hx
          · exact fun _ => rfl
          · exact ih hout x hx
      unfold pfsLockEvents at h
      split_ifs at h with hsame hcnt hrecall
      · exact ih h
      · obtain ⟨found, -, h⟩ := except_bind_ok h
        exact hput found h
      · exact hput _ h

/-- The waiting are told of, and none is served. -/
theorem notify_queue (h : pfsLockNotify who a s = .ok t) :
    Served 0 [] s t ∧ Frame a s t ∧ (s.Blocked a → t.Blocked a) := by
  unfold pfsLockNotify at h
  obtain ⟨l, hl, h⟩ := except_bind_ok h
  obtain ⟨out, hout, h⟩ := except_bind_ok h
  cases h
  refine ⟨.of_eq rfl rfl le_rfl rfl (lockEvents_quiet _ hout), ?_, ?_⟩
  · exact ⟨fun b hb => Function.update_of_ne hb _ _, fun _ _ => rfl, fun _ _ => rfl⟩
  · intro hs m w ws hm hw
    change Function.update s.lock a _ a = some m at hm
    rw [Function.update_self] at hm
    cases hm
    exact hs l w ws (lock_of_lockAt hl) hw

/-! ### Waking the waiting -/

/-- A session waits once. -/
theorem waiting_unwait (hn : (s.waits.map (·.session)).Nodup) (hw : w ∈ s.waits) (b : ℕ) :
    ((s.waits.filter fun v => v.session ≠ w.session).filter fun v => v.aPLockWait = b) =
      (s.waiting b).filter fun v => v ≠ w := by
  unfold PFS.waiting
  rw [List.filter_filter, List.filter_filter]
  apply List.filter_congr
  intro v hv
  have hsame : v.session = w.session ↔ v = w :=
    ⟨fun h => List.inj_on_of_nodup_map hn hv hw h, fun h => h ▸ rfl⟩
  simp [hsame, Bool.and_comm]

theorem countP_unwait {ws : List LockWait} (hn : (ws.map (·.session)).Nodup) (hw : w ∈ ws)
    (v : SessionId) :
    (if v = w.session then 1 else 0) +
        (ws.filter fun x => x.session ≠ w.session).countP (fun x => x.session = v) =
      ws.countP fun x => x.session = v := by
  induction ws with
  | nil => cases hw
  | cons x ws ih =>
      obtain ⟨hx, hnd⟩ := List.nodup_cons.mp hn
      rcases List.mem_cons.mp hw with rfl | hw
      · have hall : ws.filter (fun x => x.session ≠ w.session) = ws := by
          rw [List.filter_eq_self]
          intro y hy
          simpa using fun h => hx (List.mem_map.mpr ⟨y, hy, h⟩)
        rw [List.filter_cons_of_neg (by simp), hall, List.countP_cons]
        by_cases hv : v = w.session
        · simp [hv, add_comm]
        · simp [hv, Ne.symm hv]
      · have hne : x.session ≠ w.session := by
          intro h
          exact hx (List.mem_map.mpr ⟨w, hw, h.symm⟩)
        rw [List.filter_cons_of_pos (by simpa using hne), List.countP_cons, List.countP_cons,
          ← ih hnd hw]
        omega

/-- A session that waits for the lock at `a` is let in. -/
theorem let_in (l : PFSLock) (bRead : Bool) (hn : (s.waits.map (·.session)).Nodup) (hw : w ∈ s.waiting a) :
    Served 0 [] s (pfsLockReply w.session bRead a l
        { s with waits := s.waits.filter fun v => v.session ≠ w.session }) ∧
      Frame a s (pfsLockReply w.session bRead a l
        { s with waits := s.waits.filter fun v => v.session ≠ w.session }) := by
  obtain ⟨hws, rfl⟩ := mem_waiting.mp hw
  constructor
  · apply reply_served
    · exact fun h => h.sublist (List.filter_sublist.map _)
    · intro v
      rw [Pi.zero_apply, add_zero]
      exact countP_unwait hn hws v
  · apply reply_frame
    intro b hb
    rw [waiting_unwait hn hws, List.filter_eq_self]
    intro v hv
    simpa using fun h => hb ((h ▸ (mem_waiting.mp hv).2).symm)

/-- The loop has passed the writers in `kept`. -/
theorem wake_queue (kept ws : List LockWait) (hn : (s.waits.map (·.session)).Nodup)
    (hl : s.lock a = some l) (hpos : 0 ≤ l.lCnt) (hw : s.waiting a = kept ++ ws)
    (hkept : ∀ w ∈ kept, w.aLockRead = false) (hcnt : kept ≠ [] → 0 < l.lCnt)
    (h : pfsWake a ws s = .ok t) : Served 0 [] s t ∧ Frame a s t ∧ t.Blocked a := by
  induction ws generalizing s l kept with
  | nil =>
      cases h
      refine ⟨.of_eq rfl rfl le_rfl (List.append_nil _).symm (by simp), .refl, ?_⟩
      intro m w ws hm hww
      rw [List.append_nil] at hw
      cases hl.symm.trans hm
      have hmem : w ∈ kept := by
        rw [← hw, hww]
        exact List.mem_cons_self
      have hlt := hcnt (List.ne_nil_of_mem hmem)
      have hwrite := hkept w hmem
      simp [hwrite]
      omega
  | cons w ws ih =>
      unfold pfsWake at h
      obtain ⟨k, hk, h⟩ := except_bind_ok h
      obtain rfl : l = k := Option.some.inj (hl.symm.trans (lock_of_lockAt hk))
      have hmem : w ∈ s.waiting a := by
        rw [hw]
        simp
      have hnw : (s.waiting a).Nodup := (hn.of_map _).sublist List.filter_sublist
      have hrest : (s.waits.filter fun v => v.session ≠ w.session).filter
          (fun v => v.aPLockWait = a) = kept ++ ws := by
        rw [waiting_unwait hn (mem_waiting.mp hmem).1, hw]
        rw [hw, List.nodup_append] at hnw
        obtain ⟨-, hws, hdis⟩ := hnw
        rw [List.filter_append, List.filter_cons_of_neg (by simp), List.filter_eq_self.mpr,
          List.filter_eq_self.mpr]
        · intro v hv
          simpa using ne_of_mem_of_not_mem hv (List.nodup_cons.mp hws).1
        · intro v hv
          simpa using hdis v hv w List.mem_cons_self
      obtain ⟨hserved, hframe⟩ := let_in l w.aLockRead hn hmem
      split_ifs at h with hskip hwrite
      · -- a writer stays, since a reader was let in before
        apply ih (kept ++ [w]) hn hl hpos _ _ _ h
        · rw [hw, List.append_assoc]
          rfl
        · intro v hv
          rcases List.mem_append.mp hv with hv | hv
          · exact hkept v hv
          · rw [List.mem_singleton.mp hv]
            exact hskip.1
        · intro _
          omega
      · cases h
        refine ⟨hserved, hframe, ?_⟩
        intro m v vs hm _
        have hzero : l.lCnt = 0 := by
          by_contra hne
          exact hskip ⟨hwrite, hne⟩
        change Function.update s.lock a _ a = some m at hm
        rw [Function.update_self] at hm
        cases hm
        simp [hwrite, hzero]
      · have hread : w.aLockRead = true := by simpa using hwrite
        obtain ⟨h1, h2, h3⟩ := ih kept (hserved.once hn) (Function.update_self _ _ _)
          (by simp [hread]; omega) hrest hkept (by simp [hread]; omega) h
        exact ⟨hserved.then h1, hframe.trans h2, h3⟩

theorem unlocked_queue (hn : (s.waits.map (·.session)).Nodup) (hl : s.lock a = some l)
    (h : pfsUnlocked a s = .ok t) :
    Served 0 [] s t ∧ Frame a s t ∧ (l.lCnt ≠ 0 → t = s) ∧ (l.lCnt = 0 → t.Blocked a) := by
  unfold pfsUnlocked at h
  obtain ⟨k, hk, h⟩ := except_bind_ok h
  obtain rfl : l = k := Option.some.inj (hl.symm.trans (lock_of_lockAt hk))
  split_ifs at h with hcnt
  · cases h
    refine ⟨.of_eq rfl rfl le_rfl (List.append_nil _).symm (by simp), .refl, fun _ => rfl, ?_⟩
    exact fun h0 => absurd h0 hcnt
  · have hzero : l.lCnt = 0 := not_not.mp hcnt
    obtain ⟨u, hu, h⟩ := except_bind_ok h
    obtain ⟨hserved, hframe, hblocked⟩ :=
      wake_queue [] _ hn hl hzero.ge rfl (by simp) (by simp) hu
    cases hw : u.waiting a with
    | nil =>
        rw [hw] at h
        cases h
        exact ⟨hserved, hframe, fun hne => absurd hzero hne, fun _ => hblocked⟩
    | cons w ws =>
        rw [hw] at h
        obtain ⟨h1, h2, h3⟩ := notify_queue h
        exact ⟨hserved.then h1, hframe.trans h2, fun hne => absurd hzero hne,
          fun _ => h3 hblocked⟩

/-! ### Unlocking -/

theorem garbage_queue {freed : Bool} (h : pfsLockGarbage a s = .ok (freed, t)) :
    Served 0 [] s t ∧ Frame a s t ∧ t.joints = s.joints ∧ t.waits = s.waits ∧
      (freed = true → t.lock a = none) ∧ (freed = false → t = s) := by
  unfold pfsLockGarbage at h
  obtain ⟨l, -, h⟩ := except_bind_ok h
  split_ifs at h with htie hcnt
  · cases h
    refine ⟨.of_eq rfl rfl le_rfl (List.append_nil _).symm (by simp), ?_, rfl, rfl, ?_, by simp⟩
    · exact ⟨fun b hb => Function.update_of_ne hb _ _, fun _ _ => rfl, fun _ _ => rfl⟩
    · exact fun _ => Function.update_self _ _ _
  · cases h
    exact ⟨.of_eq rfl rfl le_rfl (List.append_nil _).symm (by simp), .refl, rfl, rfl, by simp,
      fun _ => rfl⟩

/-- A hold is released. The lock stays kept out of, or some of its holds are left. -/
theorem unlock_queue {p : Process} {bAbort : Bool} (hs : s.Sound)
    (hn : (s.waits.map (·.session)).Nodup) (h : pfsUnlock p i bAbort s = .ok t)
    (hhold : ∀ j ∈ s.joints, j.jId = i → j.hold = true) :
    ∃ j ∈ s.joints, j.jId = i ∧ Served 0 [i] s t ∧ Frame j.jPArg s t ∧
      (s.Blocked j.jPArg → t.Blocked j.jPArg) ∧
      (t.Blocked j.jPArg ∨ t.holds j.jPArg ≠ [] ∧
        ∀ k ∈ t.holds j.jPArg, k ∈ s.holds j.jPArg ∧ k.jId ≠ i) := by
  unfold pfsUnlock at h
  obtain ⟨j, hjoint, h⟩ := except_bind_ok h
  obtain ⟨hj, rfl⟩ := mem_of_joint hjoint
  obtain ⟨l, hl, h⟩ := except_bind_ok h
  have hl : s.lock j.jPArg = some l := lock_of_lockAt hl
  have hjh : j ∈ s.holds j.jPArg := mem_holds.mpr ⟨hj, hhold j hj rfl, rfl⟩
  have hcounted := hs.count _ l hl
  refine ⟨j, hj, rfl, ?_⟩
  by_cases hcnt : l.lCnt = 0
  · rw [if_pos hcnt] at h
    cases h
  · rw [if_neg hcnt] at h
    obtain ⟨e, he, h⟩ := except_bind_ok h
    obtain ⟨⟨freed, v⟩, hg, h⟩ := except_bind_ok h
    obtain ⟨m, hm⟩ : ∃ m : PFSLock, m = { l with
        lCnt := if 0 < l.lCnt then l.lCnt - 1 else l.lCnt + 1
        lHoldHash := e.elim l.lHoldHash l.lHoldHash.erase } := ⟨_, rfl⟩
    have hmc : m.lCnt = if 0 < l.lCnt then l.lCnt - 1 else l.lCnt + 1 := by rw [hm]
    -- the state that the garbage callback is run in
    obtain ⟨u, o, hu, ho, hg⟩ : ∃ u o, u = ({ s.setLock j.jPArg m with
        joints := s.joints.filter fun k => k.jId ≠ j.jId, out := s.out ++ o } : PFS) ∧
        (∀ x ∈ o, ∀ who, PFSOut.lockReply who x = false) ∧
        pfsLockGarbage j.jPArg u = .ok (freed, v) := by
      by_cases hdel : bAbort = true ∧ l.lCnt < 0
      · rw [if_pos hdel, ← hm] at hg
        refine ⟨_, [.deleted l.lName], rfl, ?_, hg⟩
        intro x hx
        rw [List.mem_singleton.mp hx]
        exact fun _ => rfl
      · rw [if_neg hdel, ← hm] at hg
        refine ⟨_, [], rfl, by simp, ?_⟩
        rw [List.append_nil]
        exact hg
    have hserved : Served 0 [j.jId] s u := by
      rw [hu]
      refine .quiet ?_ rfl le_rfl rfl ho
      simp
    have hholds : ∀ b, u.holds b = (s.holds b).filter fun k => k.jId ≠ j.jId := by
      intro b
      rw [hu]
      exact holds_filter b
    have hframe : Frame j.jPArg s u := by
      constructor
      · intro b hb
        rw [hu]
        exact Function.update_of_ne hb _ _
      · intro b _
        rw [hu]
        rfl
      · intro b hb
        rw [hholds, filter_ne_of_notMem]
        intro k hk hkj
        obtain ⟨hks, -, hkb⟩ := mem_holds.mp hk
        rw [List.inj_on_of_nodup_map hs.jids hks hj hkj] at hkb
        exact hb hkb.symm
    have hum : u.lock j.jPArg = some m := by
      rw [hu]
      exact Function.update_self _ _ _
    obtain ⟨hgs, hgf, -, -, hfreed, hkept⟩ := garbage_queue hg
    cases freed with
    | true =>
        cases h
        have hblocked : t.Blocked j.jPArg := by
          intro k w ws hk
          rw [hfreed rfl] at hk
          cases hk
        exact ⟨hserved.then hgs, hframe.trans hgf, fun _ => hblocked, .inl hblocked⟩
    | false =>
        cases hkept rfl
        obtain ⟨h1, h2, h3, h4⟩ := unlocked_queue (hserved.once hn) hum h
        refine ⟨hserved.then h1, hframe.trans h2, ?_⟩
        by_cases hzero : m.lCnt = 0
        · exact ⟨fun _ => h4 hzero, .inl (h4 hzero)⟩
        · cases h3 hzero
          have hperm : (s.holds j.jPArg).Perm
              (j :: (s.holds j.jPArg).filter fun k => k.jId ≠ j.jId) :=
            perm_cons_filter (hs.jids.sublist (List.filter_sublist.map _)) hjh
          constructor
          · -- a writer's hold would have been the only one
            intro hb k w ws hk hw
            have hw : s.waiting j.jPArg = w :: ws := by
              rw [hu] at hw
              exact hw
            cases hum.symm.trans hk
            refine ⟨hzero, ?_⟩
            intro hread
            have hneg := (hb l w ws hl hw).2 hread
            rcases hcounted with ⟨hlen, -⟩ | ⟨hone, -⟩
            · omega
            · rw [hmc, hone] at hzero
              exact absurd rfl hzero
          · right
            rw [hholds]
            constructor
            · intro hnil
              rw [hnil] at hperm
              have hrem := hcounted.remove hperm
              rw [← hmc] at hrem
              exact hzero hrem.nil
            · intro k hk
              obtain ⟨hk, hne⟩ := List.mem_filter.mp hk
              exact ⟨hk, by simpa using hne⟩

/-! ### Requests -/

theorem PFS.Blocked.reply (hb : s.Blocked a) (hl : s.lock a = some l)
    (hg : Grants bRead l.lCnt) : (pfsLockReply who bRead a l s).Blocked a := by
  intro m w ws hm hw
  obtain ⟨hne, hread⟩ := hb l w ws hl hw
  obtain ⟨k, hk, -, hcnt, -⟩ := reply_lock who bRead a l s
  rw [hk, Function.update_self] at hm
  cases hm
  rw [hcnt]
  rcases hg with ⟨rfl, hle⟩ | ⟨rfl, hzero⟩
  · constructor
    · simp
      omega
    · intro hw
      have hlt := hread hw
      omega
  · exact absurd hzero hne

/-- The lock is given to `who` at once. -/
theorem reply_queue (who : SessionId) (hb : ∀ b, s.Blocked b) (hl : s.lock a = some l) (hg : Grants bRead l.lCnt) :
    Served (Pi.single who 1) [] s (pfsLockReply who bRead a l s) ∧
      ∀ b, (pfsLockReply who bRead a l s).Blocked b := by
  constructor
  · apply reply_served s.waits id
    intro v
    rw [Pi.single_apply, add_comm]
    rfl
  · intro b
    by_cases hba : b = a
    · rw [hba]
      exact (hb a).reply hl hg
    · exact (reply_frame s.waits fun _ _ => rfl).blocked hba (hb b)

/-- The request of a session that does not wait is put off. -/
theorem lockWait_queue {bEmptyWait : Bool} (hb : ∀ b, s.Blocked b) (hl : s.lock a = some l)
    (hwho : s.awaits who = 0)
    (hkept : s.waiting a = [] → l.lCnt ≠ 0 ∧ (bRead = true → l.lCnt < 0))
    (h : pfsLockWait who bRead bEmptyWait a s = .ok t) :
    Served (Pi.single who 1) [] s t ∧ ∀ b, t.Blocked b := by
  have hnot : ∀ w ∈ s.waits, w.session ≠ who := by
    unfold PFS.awaits at hwho
    rw [List.countP_eq_zero] at hwho
    intro w hw
    simpa using hwho w hw
  have hadd : Served (Pi.single who 1) [] s { s with waits := s.waits ++ [⟨who, a, bRead⟩] } := by
    refine ⟨le_rfl, ?_, [], [], by simp, (List.append_nil _).symm, by simp, ?_⟩
    · intro hn
      rw [List.map_append, List.nodup_append]
      refine ⟨hn, by simp, ?_⟩
      intro x hx y hy
      obtain ⟨w, hw, rfl⟩ := List.mem_map.mp hx
      have hy : y = who := by simpa using hy
      rw [hy]
      exact hnot w hw
    · intro v
      have hv : PFS.awaits { s with waits := s.waits ++ [⟨who, a, bRead⟩] } v =
          s.awaits v + if v = who then 1 else 0 := by
        unfold PFS.awaits
        rw [List.countP_append]
        by_cases hvw : v = who
        · simp [hvw]
        · simp [hvw, Ne.symm hvw]
      simp [hv, Pi.single_apply]
  have hwaiting : ∀ b, PFS.waiting b { s with waits := s.waits ++ [⟨who, a, bRead⟩] } =
      if b = a then s.waiting b ++ [⟨who, a, bRead⟩] else s.waiting b := by
    intro b
    unfold PFS.waiting
    rw [List.filter_append]
    by_cases hba : b = a
    · simp [hba]
    · simp [hba, Ne.symm hba]
  have hblocked : ∀ b, PFS.Blocked { s with waits := s.waits ++ [⟨who, a, bRead⟩] } b := by
    intro b m w ws hm hw
    rw [hwaiting] at hw
    by_cases hba : b = a
    · subst hba
      rw [if_pos rfl] at hw
      cases hl.symm.trans hm
      cases hwb : s.waiting b with
      | nil =>
          rw [hwb] at hw
          cases hw
          exact hkept hwb
      | cons v vs =>
          rw [hwb] at hw
          cases hw
          exact hb b l w vs hl hwb
    · rw [if_neg hba] at hw
      exact hb b m w ws hm hw
  unfold pfsLockWait at h
  rw [if_neg (by simpa using hnot)] at h
  split_ifs at h with hempty
  · obtain ⟨h1, h2, h3⟩ := notify_queue h
    refine ⟨hadd.then h1, ?_⟩
    intro b
    by_cases hba : b = a
    · rw [hba]
      exact h3 (hblocked a)
    · exact h2.blocked hba (hblocked b)
  · cases h
    exact ⟨hadd, hblocked⟩

/-- Nobody waits for a lock that is new. -/
theorem lockAlloc_queue (hs : s.Sound) (hb : ∀ b, s.Blocked b) (name : String) :
    Served 0 [] s (s.lockAlloc name).2 ∧ ∀ b, (s.lockAlloc name).2.Blocked b := by
  unfold PFS.lockAlloc
  cases hc : s.cLock name with
  | some a => exact ⟨.of_eq rfl rfl le_rfl (List.append_nil _).symm (by simp), hb⟩
  | none =>
      refine ⟨.of_eq rfl rfl (Nat.le_succ _) (List.append_nil _).symm (by simp), ?_⟩
      intro b l w ws hl hw
      have hwb : w ∈ s.waiting b := hw ▸ List.mem_cons_self
      obtain ⟨hws, hwa⟩ := mem_waiting.mp hwb
      obtain ⟨k, hk⟩ := hs.wlive w hws
      have hne : b ≠ s.next := by
        intro h
        have hlt := hs.fresh _ k hk
        omega
      change Function.update s.lock s.next _ b = some l at hl
      rw [Function.update_of_ne hne] at hl
      exact hb b l w ws hl hw

theorem lockS_queue {name : String} (hs : s.Sound) (hn : (s.waits.map (·.session)).Nodup)
    (hb : ∀ b, s.Blocked b)
    (hwho : s.awaits who = 0 ∨ ∀ a l, s.cLock name = some a → s.lock a = some l →
      ¬ Relocks bRead false a l s)
    (h : pfsLockS who name bRead s = .ok t) :
    ∃ g, Served (Pi.single who 1) g s t ∧ ∀ b, t.Blocked b := by
  have hopen : who ∈ s.adaptors := by
    by_contra hw
    unfold pfsLockS at h
    rw [if_pos hw] at h
    cases h
  obtain ⟨hsu, ⟨l, hl, -, -⟩, -, -, -, -⟩ := lockAlloc_sound hs name
  obtain ⟨hserved, hbu⟩ := lockAlloc_queue hs hb name
  have hheld := lockAlloc_held hs name
  rcases hau : s.lockAlloc name with ⟨a, u⟩
  rw [hau] at hsu hl hserved hbu hheld
  rw [lockS_eq hopen hau hl] at h
  have hcounted := hsu.count a l hl
  by_cases hreply : u.holds a = [] ∨ ((u.waiting a).isEmpty ∧ bRead ∧ 0 < l.lCnt)
  · rw [if_pos hreply] at h
    cases h
    have hg : Grants bRead l.lCnt := by
      rcases hreply with hnil | ⟨-, hr, hpos⟩
      · rw [hnil] at hcounted
        cases bRead
        · exact .inr ⟨rfl, hcounted.nil⟩
        · exact .inl ⟨rfl, hcounted.nil.ge⟩
      · exact .inl ⟨hr, hpos.le⟩
    obtain ⟨h1, h2⟩ := reply_queue who hbu hl hg
    have h1 := hserved.trans h1 (by simp)
    rw [zero_add] at h1
    exact ⟨_, h1, h2⟩
  · rw [if_neg hreply] at h
    have hne : u.holds a ≠ [] := fun h => hreply (.inl h)
    have hshare : u.waiting a = [] → ¬ (bRead = true ∧ 0 < l.lCnt) := by
      intro hw hg
      exact hreply (.inr ⟨by simpa using hw, hg⟩)
    obtain ⟨hc, rfl⟩ := hheld hne
    have hfree : u.awaits who = 0 := by
      rcases hwho with hfree | hre
      · exact hfree
      · exact absurd ⟨hne, fun hw => hshare hw.1 hw.2, by simp⟩ (hre a l hc hl)
    have hcnt : l.lCnt ≠ 0 := by
      obtain ⟨j, hj⟩ := List.exists_mem_of_ne_nil _ hne
      exact hcounted.ne_zero hj
    obtain ⟨r, hr, h⟩ := except_bind_ok h
    cases r with
    | none =>
        refine ⟨_, lockWait_queue hb hl hfree ?_ h⟩
        intro hw
        refine ⟨hcnt, fun hread => ?_⟩
        have hle : ¬ 0 < l.lCnt := fun hpos => hshare hw ⟨hread, hpos⟩
        omega
    | some e =>
        simp only at h
        obtain ⟨v, hv, h⟩ := except_bind_ok h
        obtain ⟨m, hm, h⟩ := except_bind_ok h
        have hm := lock_of_lockAt hm
        obtain ⟨pre, post, hes, -, -⟩ := holdHashGet_some hr
        have hmem : e ∈ l.lHoldHash := by
          rw [hes]
          simp
        obtain ⟨j, hj, hje, hsv, hframe, hkeep, -⟩ := unlock_queue hs hn hv
          fun j hj hje => ((hs.hash a l hl e hmem).2 j hj hje).1
        have hbv : ∀ b, v.Blocked b := by
          intro b
          by_cases hba : b = j.jPArg
          · rw [hba]
            exact hkeep (hb _)
          · exact hframe.blocked hba (hb b)
        have hgone : Served (Pi.single who 1) [] v t ∧ ∀ b, t.Blocked b := by
          split_ifs at h with hg
          · cases h
            exact reply_queue who hbv hm hg
          · apply lockWait_queue hbv hm _ _ h
            · obtain ⟨-, -, _, o, -, -, -, hcount⟩ := hsv
              have hwho := (hcount who).2
              rw [hfree, Pi.zero_apply] at hwho
              omega
            · intro _
              cases bRead
              · simpa using hg
              · simp at hg ⊢
                omega
        have h1 := hsv.trans hgone.1 (by simp)
        rw [zero_add] at h1
        exact ⟨_, h1, hgone.2⟩

theorem tryLockS_queue {name : String} {bTry : Bool} (hs : s.Sound)
    (hn : (s.waits.map (·.session)).Nodup) (hb : ∀ b, s.Blocked b)
    (hwho : s.awaits who = 0 ∨ ∀ a l, s.cLock name = some a → s.lock a = some l →
      ¬ Relocks bRead bTry a l s)
    (h : pfsTryLockS who name bRead bTry s = .ok t) :
    ∃ g, Served (Pi.single who 1) g s t ∧ ∀ b, t.Blocked b := by
  unfold pfsTryLockS at h
  cases bTry with
  | false => exact lockS_queue hs hn hb hwho h
  | true =>
      cases hc : s.cLock name with
      | none =>
          rw [hc] at h
          apply lockS_queue hs hn hb (.inr _) h
          intro a l ha
          rw [hc] at ha
          cases ha
      | some a =>
          rw [hc] at h
          obtain ⟨l, hl, h⟩ := except_bind_ok h
          have hl := lock_of_lockAt hl
          split_ifs at h with hg
          · apply lockS_queue hs hn hb _ h
            apply hwho.imp id
            intro hre b m hcb hm hrel
            cases hc.symm.trans hcb
            cases hl.symm.trans hm
            exact hre a l hc hl ⟨hrel.1, hrel.2.1, fun _ => hg⟩
          · cases h
            refine ⟨[], ⟨le_rfl, id, [], [.lockRpl who l.lVer true], by simp [PFS.send], rfl, by simp, ?_⟩,
              hb⟩
            intro v
            constructor
            · simp [PFSOut.grants]
            · by_cases hv : v = who
              · simp [hv, PFSOut.lockReply, add_comm, PFS.awaits, PFS.send]
              · simp [hv, Ne.symm hv, PFSOut.lockReply, PFS.awaits, PFS.send]

/-- An answer that is no reply to a lock request -/
theorem PFS.Served.send (h : Served n g s t) {x : PFSOut} (hx : ∀ v, x.lockReply v = false) :
    Served n g s (t.send x) := by
  refine h.then (.of_eq (o := [x]) rfl rfl le_rfl rfl ?_)
  intro y hy
  rw [List.mem_singleton.mp hy]
  exact hx

/-- An unlocking keeps the queues. -/
theorem unlock_blocked {p : Process} {bAbort : Bool} (hs : s.Sound)
    (hn : (s.waits.map (·.session)).Nodup) (hb : ∀ b, s.Blocked b)
    (h : pfsUnlock p i bAbort s = .ok t) (hhold : ∀ j ∈ s.joints, j.jId = i → j.hold = true) :
    Served 0 [i] s t ∧ ∀ b, t.Blocked b := by
  obtain ⟨j, -, -, hserved, hframe, hkeep, -⟩ := unlock_queue hs hn h hhold
  refine ⟨hserved, ?_⟩
  intro b
  by_cases hba : b = j.jPArg
  · rw [hba]
    exact hkeep (hb _)
  · exact hframe.blocked hba (hb b)

theorem unlockS_queue {name : String} (hs : s.Sound) (hn : (s.waits.map (·.session)).Nodup)
    (hb : ∀ b, s.Blocked b) (h : pfsUnlockS who name s = .ok t) :
    ∃ g, Served 0 g s t ∧ ∀ b, t.Blocked b := by
  unfold pfsUnlockS at h
  by_cases hopen : who ∈ s.adaptors
  · rw [if_neg (not_not.mpr hopen)] at h
    cases hf : (s.cLock name).bind fun a => (s.holds a).find? fun j => j.jAdaptor = who with
    | none =>
        rw [hf] at h
        cases h
        have hself : Served 0 [] s s := .of_eq rfl rfl le_rfl (List.append_nil _).symm (by simp)
        exact ⟨_, hself.send fun _ => rfl, hb⟩
    | some j =>
        rw [hf] at h
        obtain ⟨a, -, hfind⟩ := Option.bind_eq_some_iff.mp hf
        obtain ⟨hj, hhold, -⟩ := mem_holds.mp (List.mem_of_find?_eq_some hfind)
        obtain ⟨u, hu, h⟩ := except_bind_ok h
        cases h
        obtain ⟨h1, h2⟩ := unlock_blocked hs hn hb hu (by
          intro k hk hkj
          rwa [List.inj_on_of_nodup_map hs.jids hk hj hkj])
        exact ⟨_, h1.send fun _ => rfl, h2⟩
  · rw [if_pos hopen] at h
    cases h

theorem unlockSuperS_queue {name : String} {lId : SessionId} (hs : s.Sound)
    (hn : (s.waits.map (·.session)).Nodup) (hb : ∀ b, s.Blocked b)
    (h : pfsUnlockSuperS who name lId s = .ok t) : ∃ g, Served 0 g s t ∧ ∀ b, t.Blocked b := by
  have hself : Served 0 [] s s := .of_eq rfl rfl le_rfl (List.append_nil _).symm (by simp)
  unfold pfsUnlockSuperS at h
  cases hc : s.cLock name with
  | none =>
      rw [hc] at h
      cases h
      exact ⟨_, hself.send fun _ => rfl, hb⟩
  | some a =>
      rw [hc] at h
      obtain ⟨l, hl, h⟩ := except_bind_ok h
      obtain ⟨r, hr, h⟩ := except_bind_ok h
      cases r with
      | none =>
          cases h
          exact ⟨_, hself.send fun _ => rfl, hb⟩
      | some e =>
          obtain ⟨u, hu, h⟩ := except_bind_ok h
          cases h
          obtain ⟨pre, post, hes, -, -⟩ := holdHashGet_some hr
          have hmem : e ∈ l.lHoldHash := by
            rw [hes]
            simp
          obtain ⟨h1, h2⟩ := unlock_blocked hs hn hb hu fun j hj hje =>
            ((hs.hash a l (lock_of_lockAt hl) e hmem).2 j hj hje).1
          exact ⟨_, h1.send fun _ => rfl, h2⟩

theorem eventFree_queue (hb : ∀ b, s.Blocked b) (h : pfsEventFree i s = .ok t) :
    Served 0 [i] s t ∧ ∀ b, t.Blocked b := by
  unfold pfsEventFree at h
  obtain ⟨j, -, h⟩ := except_bind_ok h
  obtain ⟨⟨freed, u⟩, hg, h⟩ := except_bind_ok h
  cases h
  obtain ⟨h1, h2, -, -, hfreed, hkept⟩ := garbage_queue hg
  have hgone : Served 0 [i] s { s with joints := s.joints.filter fun k => k.jId ≠ i } :=
    .quiet (by simp) rfl le_rfl (List.append_nil _).symm (by simp)
  refine ⟨hgone.then h1, ?_⟩
  intro b
  by_cases hba : b = j.jPArg
  · cases freed with
    | true =>
        intro k w ws hk
        rw [hba, hfreed rfl] at hk
        cases hk
    | false =>
        cases hkept rfl
        exact hb b
  · exact h2.blocked hba (hb b)

/-- Holds that are still to be released keep the waiting out too. -/
theorem unlockAll_queue {p : Process} {bAbort : Bool} (is : List ℕ) (hs : s.Sound)
    (hn : (s.waits.map (·.session)).Nodup) (hnd : is.Nodup)
    (his : ∀ i ∈ is, ∃ j ∈ s.joints, j.jId = i ∧ j.hold = true ∧ s.KeysLive j.jPArg)
    (hb : ∀ b, s.Blocked b ∨ s.holds b ≠ [] ∧ ∀ k ∈ s.holds b, k.jId ∈ is)
    (h : pfsUnlockAll p bAbort is s = .ok t) : Served 0 is s t ∧ ∀ b, t.Blocked b := by
  induction is generalizing s with
  | nil =>
      cases h
      refine ⟨.of_eq rfl rfl le_rfl (List.append_nil _).symm (by simp), ?_⟩
      intro b
      rcases hb b with hb | ⟨hne, hnone⟩
      · exact hb
      · obtain ⟨k, hk⟩ := List.exists_mem_of_ne_nil _ hne
        exact absurd (hnone k hk) List.not_mem_nil
  | cons i is ih =>
      unfold pfsUnlockAll at h
      obtain ⟨u, hu, hut⟩ := except_bind_ok h
      obtain ⟨hi, hni⟩ := List.nodup_cons.mp hnd
      obtain ⟨j, hj, rfl, hhold, hkeys⟩ := his i List.mem_cons_self
      obtain ⟨v, hv, hk, -⟩ := unlock_ok p bAbort hs hj hhold hkeys
      cases hu.symm.trans hv
      have huniq : ∀ k ∈ s.joints, k.jId = j.jId → k = j := fun k hk hkj =>
        List.inj_on_of_nodup_map hs.jids hk hj hkj
      obtain ⟨j', hj', hjj', hserved, hframe, hkeep, hleft⟩ := unlock_queue hs hn hu
        fun k hk hkj => huniq k hk hkj ▸ hhold
      cases huniq j' hj' hjj'
      have hrest : Served 0 is u t ∧ ∀ b, t.Blocked b := by
        apply ih hk.sound (hserved.once hn) hni _ _ hut
        · intro i' hi'
          obtain ⟨d, hd, rfl, hdh, hdk⟩ := his i' (List.mem_cons_of_mem _ hi')
          have hne : d.jId ∉ [j.jId] := by
            intro hdj
            exact hi (List.mem_singleton.mp hdj ▸ hi')
          exact ⟨d, hk.stays d hd hne, rfl, hdh, hk.keys _ hdk⟩
        · intro b
          by_cases hba : b = j.jPArg
          · subst hba
            rcases hleft with hleft | ⟨hne, hleft⟩
            · exact .inl hleft
            · rcases hb j.jPArg with hb | ⟨-, hall⟩
              · exact .inl (hkeep hb)
              · right
                refine ⟨hne, ?_⟩
                intro k hk
                obtain ⟨hk, hkj⟩ := hleft k hk
                exact (List.mem_cons.mp (hall k hk)).resolve_left hkj
          · rcases hb b with hb | ⟨hne, hall⟩
            · exact .inl (hframe.blocked hba hb)
            · right
              rw [hframe.holds b hba]
              refine ⟨hne, ?_⟩
              intro k hk
              apply (List.mem_cons.mp (hall k hk)).resolve_left
              intro hkj
              obtain ⟨hks, -, hkb⟩ := mem_holds.mp hk
              rw [huniq k hks hkj] at hkb
              exact hba hkb.symm
      refine ⟨?_, hrest.2⟩
      have h1 := hserved.trans hrest.1 (by
        intro i' hi'
        obtain ⟨d, hd, rfl, -⟩ := his i' (List.mem_cons_of_mem _ hi')
        exact hs.jfresh d hd)
      rwa [zero_add] at h1

theorem eventFreeAll_queue (is : List ℕ) (hlt : ∀ i ∈ is, i < s.next) (hb : ∀ b, s.Blocked b)
    (h : pfsEventFreeAll is s = .ok t) : Served 0 is s t ∧ ∀ b, t.Blocked b := by
  induction is generalizing s with
  | nil =>
      cases h
      exact ⟨.of_eq rfl rfl le_rfl (List.append_nil _).symm (by simp), hb⟩
  | cons i is ih =>
      unfold pfsEventFreeAll at h
      obtain ⟨u, hu, h⟩ := except_bind_ok h
      obtain ⟨h1, hbu⟩ := eventFree_queue hb hu
      have htail : ∀ k ∈ is, k < s.next := fun k hk => hlt k (List.mem_cons_of_mem _ hk)
      obtain ⟨h2, hbt⟩ := ih (fun k hk => (htail k hk).trans_le h1.next) hbu h
      have h3 := h1.trans h2 htail
      rw [zero_add] at h3
      exact ⟨h3, hbt⟩

end Queues

/-- No session that waits asks for what it would have to wait for, and none
closes that alone keeps a reader from other readers. -/
def Queueable (s : PFS) (op : PFSOp) : Prop :=
  Usable s op ∧
    match op with
    | .lock who name bRead bTry =>
        s.awaits who = 0 ∨ ∀ a l, s.cLock name = some a → s.lock a = some l →
          ¬ Relocks bRead bTry a l s
    | .close who _ =>
        ∀ w ∈ s.waits, w.session = who →
          ∀ v vs, ((s.waiting w.aPLockWait).filter fun v => v.session ≠ who) = v :: vs →
            v.aLockRead = true → ∀ j ∈ s.holds w.aPLockWait, j.jType = .lockReadHold →
              ∀ k ∈ s.holds w.aPLockWait, k.jAdaptor = who
    | _ => True

def PFSOp.locks (who : SessionId) : PFSOp → Bool
  | .lock s _ _ _ => s = who
  | _ => false

def PFSOp.closes (who : SessionId) : PFSOp → Bool
  | .close s _ => s = who
  | _ => false

/-- What a request `op` has sent: to every session that does not close as many
replies as requests for locks are done with, and with every lock that is given
a hold. -/
def PFS.Answered (op : PFSOp) (s t : PFS) : Prop :=
  ∃ (gone : List ℕ) (news : List PFSJoint) (o : List PFSOut),
    t.joints = news ++ s.joints.filter (fun j => j.jId ∉ gone) ∧
    t.out = s.out ++ o ∧ (∀ j ∈ news, j ∉ s.joints) ∧ ∀ who,
      o.countP (PFSOut.grants who) = news.countP (PFSJoint.holdOf who) ∧
      (op.closes who = false →
        o.countP (PFSOut.lockReply who) + t.awaits who =
          s.awaits who + if op.locks who then 1 else 0)

/-- The lock table, and the queues of its locks -/
structure PFS.Queued (s : PFS) : Prop where
  sound : s.Sound
  once : (s.waits.map (·.session)).Nodup
  blocked : ∀ a, s.Blocked a

/-- The session waits no more. -/
def PFS.unwait (who : SessionId) (s : PFS) : PFS :=
  { s with waits := s.waits.filter fun w => w.session ≠ who }

section Runs
variable {s t : PFS} {who : SessionId} {op : PFSOp}

theorem PFS.Served.answered {n : SessionId → ℕ} {g : List ℕ} (hs : s.Sound) (h : Served n g s t)
    (hn : ∀ who, op.closes who = false → n who = if op.locks who then 1 else 0) :
    s.Answered op t := by
  obtain ⟨-, -, news, o, hj, ho, hnew, hcount⟩ := h
  refine ⟨g, news, o, hj, ho, ?_, ?_⟩
  · intro j hj hjs
    have hlt := hs.jfresh j hjs
    have hle := (hnew j hj).1
    omega
  · intro who
    obtain ⟨h1, h2⟩ := hcount who
    refine ⟨h1, ?_⟩
    intro hc
    rw [h2, hn who hc]

/-- A reader that comes first once `who` does not wait is kept out by a writer,
or waits for readers that are released next. -/
theorem unwait_blocked {bAbort : Bool} (hs : s.Queued) (hop : Queueable s (.close who bAbort))
    (b : ℕ) : (s.unwait who).Blocked b ∨ s.holds b ≠ [] ∧ ∀ k ∈ s.holds b, k.jAdaptor = who := by
  have hwaiting : (s.unwait who).waiting b = (s.waiting b).filter fun w => w.session ≠ who := by
    unfold PFS.unwait PFS.waiting
    rw [List.filter_filter, List.filter_filter]
    apply List.filter_congr
    intro w _
    exact Bool.and_comm _ _
  by_cases hb : (s.unwait who).Blocked b
  · exact .inl hb
  · right
    unfold PFS.Blocked at hb
    push Not at hb
    obtain ⟨l, x, xs, hl, hx, hbad⟩ := hb
    change s.lock b = some l at hl
    rw [hwaiting] at hx
    have hcounted := hs.sound.count b l hl
    cases hy : s.waiting b with
    | nil =>
        rw [hy] at hx
        cases hx
    | cons y ys =>
        obtain ⟨hne, hfirst⟩ := hs.blocked b l y ys hl hy
        obtain ⟨hread, hge⟩ := hbad hne
        have hyw : y.session = who := by
          by_contra hyw
          rw [hy, List.filter_cons_of_pos (by simpa using hyw)] at hx
          cases hx
          have hlt := hfirst hread
          omega
        obtain ⟨hys, rfl⟩ := mem_waiting.mp (hy ▸ List.mem_cons_self : y ∈ s.waiting b)
        constructor
        · intro hnil
          rw [hnil] at hcounted
          exact hne hcounted.nil
        · intro k hk
          have hreads : ∀ j ∈ s.holds y.aPLockWait, j.jType = .lockReadHold := by
            rcases hcounted with ⟨-, hc⟩ | ⟨hc, -⟩
            · exact hc
            · omega
          exact hop.2 y hys hyw x xs hx hread k hk (hreads k hk) k hk

theorem eventLockS_queue {elId : SessionId} {name : String} {elSet elBRecall bBound : Bool}
    (hs : s.Queued) (h : pfsEventLockS who elId name elSet elBRecall bBound s = .ok t) :
    (t.waits.map (·.session)).Nodup ∧ (∀ b, t.Blocked b) ∧
      s.Answered (.eventLock who elId name elSet elBRecall bBound) t := by
  have hself : Served 0 [] s s := .of_eq rfl rfl le_rfl (List.append_nil _).symm (by simp)
  have hn : ∀ v, (PFSOp.eventLock who elId name elSet elBRecall bBound).closes v = false →
      (0 : SessionId → ℕ) v =
        if (PFSOp.eventLock who elId name elSet elBRecall bBound).locks v then 1 else 0 :=
    fun _ _ => rfl
  unfold pfsEventLockS at h
  by_cases hid : elId ∈ s.adaptors
  · rw [if_neg (not_not.mpr hid)] at h
    cases elSet with
    | true =>
        obtain ⟨h1, h2⟩ := lockAlloc_queue hs.sound hs.blocked name
        obtain ⟨-, -, -, hjoints, hwaits, -⟩ := lockAlloc_sound hs.sound name
        have hout : (s.lockAlloc name).2.out = s.out := by
          unfold PFS.lockAlloc
          cases s.cLock name <;> rfl
        let j : PFSJoint := ⟨(s.lockAlloc name).2.next,
          if elBRecall then .eventLockRecall else .eventLock, elId, (s.lockAlloc name).1⟩
        have hj : j.hold = false := by
          cases elBRecall <;> rfl
        obtain rfl : t = PFS.send (.eventLockRpl who 0) { (s.lockAlloc name).2 with
            joints := j :: (s.lockAlloc name).2.joints
            next := (s.lockAlloc name).2.next + 1 } := (Except.ok.inj h).symm
        refine ⟨h1.once hs.once, h2, [], [j], [.eventLockRpl who 0], ?_, ?_, ?_, ?_⟩
        · simp [PFS.send, hjoints]
        · simp [PFS.send, hout]
        · intro k hk hks
          rw [List.mem_singleton.mp hk] at hks
          have hlt := hs.sound.jfresh j hks
          have hle : s.next ≤ j.jId := h1.next
          omega
        · intro v
          constructor
          · simp [PFSOut.grants, PFSJoint.holdOf, hj]
          · simp [PFSOut.lockReply, PFSOp.locks, PFS.awaits, PFS.send, hwaits]
    | false =>
        simp only [Bool.false_eq_true, if_false] at h
        cases hc : s.cLock name with
        | none =>
            rw [hc] at h
            cases h
        | some a =>
            rw [hc] at h
            cases hf : (s.events a).find? fun j => j.jAdaptor = elId with
            | none =>
                simp only [hf] at h
                cases h
                exact ⟨hs.once, hs.blocked, (hself.send fun _ => rfl).answered hs.sound hn⟩
            | some j =>
                simp only [hf] at h
                obtain ⟨u, hu, h⟩ := except_bind_ok h
                cases h
                obtain ⟨h1, h2⟩ := eventFree_queue hs.blocked hu
                exact ⟨h1.once hs.once, h2, (h1.send fun _ => rfl).answered hs.sound hn⟩
  · rw [if_pos hid] at h
    cases bBound with
    | true => cases h
    | false =>
        cases h
        exact ⟨hs.once, hs.blocked, (hself.send fun _ => rfl).answered hs.sound hn⟩

theorem adaptorClose_queue {bAbort : Bool} (hs : s.Queued) (hop : Queueable s (.close who bAbort))
    (h : pfsAdaptorClose who bAbort s = .ok t) :
    (t.waits.map (·.session)).Nodup ∧ (∀ b, t.Blocked b) ∧ s.Answered (.close who bAbort) t := by
  unfold pfsAdaptorClose at h
  by_cases hwho : who ∈ s.adaptors
  · rw [if_neg (not_not.mpr hwho)] at h
    obtain ⟨u, hu, hr⟩ := except_bind_ok h
    obtain ⟨v, hv, hr⟩ := except_bind_ok hr
    cases hr
    have hs' : (s.unwait who).Sound := hs.sound.unwait _
    have honce : ((s.unwait who).waits.map (·.session)).Nodup :=
      hs.once.sublist (List.filter_sublist.map _)
    have hnd (q : PFSJoint → Bool) (js : List PFSJoint) (hn : (js.map (·.jId)).Nodup) :
        ((js.filter q).map (·.jId)).Nodup := hn.sublist (List.filter_sublist.map _)
    obtain ⟨is, his⟩ : ∃ is, is =
      (s.joints.filter fun j => j.hold ∧ j.jAdaptor = who).reverse.map (·.jId) := ⟨_, rfl⟩
    have hmem : ∀ i, i ∈ is ↔ ∃ j ∈ s.joints, (j.hold = true ∧ j.jAdaptor = who) ∧ j.jId = i := by
      intro i
      rw [his]
      simp [and_assoc]
    have hu : pfsUnlockAll who.process bAbort is (s.unwait who) = .ok u := by
      rw [his]
      exact hu
    obtain ⟨h1, hbu⟩ := unlockAll_queue is hs' honce
      (by
        rw [his, List.map_reverse, List.nodup_reverse]
        exact hnd _ _ hs.sound.jids)
      (by
        intro i hi
        obtain ⟨j, hj, ⟨hhold, hjw⟩, rfl⟩ := (hmem i).mp hi
        exact ⟨j, hj, rfl, hhold, hop.1 j hj hhold hjw⟩)
      (by
        intro b
        apply (unwait_blocked hs hop b).imp id
        rintro ⟨hne, hall⟩
        refine ⟨hne, ?_⟩
        intro k hk
        obtain ⟨hks, hkh, -⟩ := mem_holds.mp hk
        exact (hmem _).mpr ⟨k, hks, ⟨hkh, hall k hk⟩, rfl⟩) hu
    have hlt : ∀ i ∈ (u.joints.filter fun j => !j.hold ∧ j.jAdaptor = who).map (·.jId),
        i < s.next := by
      intro i hi
      obtain ⟨j, hj, rfl⟩ := List.mem_map.mp hi
      obtain ⟨hj, hq⟩ := List.mem_filter.mp hj
      obtain ⟨-, -, news, o, hjoints, -, hnew, -⟩ := h1
      rw [hjoints] at hj
      rcases List.mem_append.mp hj with hj | hj
      · simp [(hnew j hj).2] at hq
      · exact hs.sound.jfresh j (List.mem_filter.mp hj).1
    obtain ⟨h2, hbv⟩ := eventFreeAll_queue _ (fun i hi => (hlt i hi).trans_le h1.next) hbu hv
    have h3 := h1.trans h2 hlt
    refine ⟨h3.once honce, hbv, ?_⟩
    obtain ⟨-, -, news, o, hjoints, hout, hnew, hcount⟩ := h3
    refine ⟨_, news, o, hjoints, hout, ?_, ?_⟩
    · intro j hj hjs
      have hle : s.next ≤ j.jId := (hnew j hj).1
      have hlt := hs.sound.jfresh j hjs
      omega
    · intro v
      refine ⟨(hcount v).1, ?_⟩
      intro hv
      have hne : v ≠ who := by
        intro h
        simp [PFSOp.closes, h] at hv
      have hsame : (s.unwait who).awaits v = s.awaits v := by
        unfold PFS.unwait PFS.awaits
        rw [List.countP_filter]
        apply List.countP_congr
        intro w _
        constructor
        · intro h
          simp at h
          simp [h.1]
        · intro h
          simp at h
          simp [h, hne]
      have heq := (hcount v).2
      rw [hsame] at heq
      exact heq
  · rw [if_pos hwho] at h
    cases h
    have hself : Served 0 [] s s := .of_eq rfl rfl le_rfl (List.append_nil _).symm (by simp)
    exact ⟨hs.once, hs.blocked, hself.answered hs.sound (by simp [PFSOp.locks])⟩

theorem step_queue (hs : s.Queued) (hop : Queueable s op) (h : pfsStep s op = .ok t) :
    t.Queued ∧ s.Answered op t := by
  have hsound : t.Sound := by
    have hsafe := step_safe hs.sound hop.1
    rwa [h] at hsafe
  have hlift : ∀ {n : SessionId → ℕ}, (∃ g, Served n g s t ∧ ∀ b, t.Blocked b) →
      (∀ v, op.closes v = false → n v = if op.locks v then 1 else 0) →
      t.Queued ∧ s.Answered op t := by
    rintro n ⟨g, hserved, hb⟩ hn
    exact ⟨⟨hsound, hserved.once hs.once, hb⟩, hserved.answered hs.sound hn⟩
  cases op with
  | «open» who =>
      have ht : t = pfsAdaptorOpen who s := (Except.ok.inj h).symm
      have hself : Served 0 [] s t ∧ ∀ b, t.Blocked b := by
        rw [ht]
        unfold pfsAdaptorOpen
        split_ifs
        · exact ⟨.of_eq rfl rfl le_rfl (List.append_nil _).symm (by simp), hs.blocked⟩
        · exact ⟨.of_eq rfl rfl le_rfl (List.append_nil _).symm (by simp), hs.blocked⟩
      exact hlift ⟨_, hself⟩ fun _ _ => rfl
  | lock who name bRead bTry =>
      apply hlift (tryLockS_queue hs.sound hs.once hs.blocked hop.2 h)
      intro v _
      simp [Pi.single_apply, PFSOp.locks, eq_comm]
  | unlock who name => exact hlift (unlockS_queue hs.sound hs.once hs.blocked h) fun _ _ => rfl
  | unlockSuper who name lId =>
      exact hlift (unlockSuperS_queue hs.sound hs.once hs.blocked h) fun _ _ => rfl
  | eventLock who elId name elSet elBRecall bBound =>
      obtain ⟨h1, h2, h3⟩ := eventLockS_queue hs h
      exact ⟨⟨hsound, h1, h2⟩, h3⟩
  | close who bAbort =>
      obtain ⟨h1, h2, h3⟩ := adaptorClose_queue hs hop h
      exact ⟨⟨hsound, h1, h2⟩, h3⟩

end Runs

/-- A lock that is awaited is held, and by a writer if the first waits to read. -/
def PFS.KeptOut (s : PFS) : Prop :=
  ∀ a w ws, s.waiting a = w :: ws →
    s.holds a ≠ [] ∧ (w.aLockRead = true → ∃ j ∈ s.holds a, j.jType = .lockWriteHold)

/-- From `s` to `t`, through `ops`, `who` was sent a reply for each of its
requests but the one it waits with. -/
def PFS.Replied (who : SessionId) (ops : List PFSOp) (s t : PFS) : Prop :=
  ∃ o, t.out = s.out ++ o ∧
    o.countP (PFSOut.lockReply who) + t.awaits who =
      s.awaits who + ops.countP (PFSOp.locks who)

theorem PFS.Queued.keptOut {s : PFS} (hs : s.Queued) : s.KeptOut := by
  intro a w ws hw
  have hmem : w ∈ s.waiting a := hw ▸ List.mem_cons_self
  obtain ⟨hws, rfl⟩ := mem_waiting.mp hmem
  obtain ⟨l, hl⟩ := hs.sound.wlive w hws
  obtain ⟨hne, hread⟩ := hs.blocked _ l w ws hl hw
  have hcounted := hs.sound.count _ l hl
  constructor
  · intro hnil
    rw [hnil] at hcounted
    exact hne hcounted.nil
  · intro hr
    have hlt := hread hr
    rcases hcounted with ⟨hc, -⟩ | ⟨-, j, hj, hwrite⟩
    · omega
    · exact ⟨j, hj ▸ List.mem_singleton_self j, hwrite⟩

theorem PFS.Queued.awaits_le {s : PFS} (hs : s.Queued) (who : SessionId) : s.awaits who ≤ 1 := by
  have hcount : s.awaits who = (s.waits.map (·.session)).count who := by
    unfold PFS.awaits List.count
    rw [List.countP_map]
    rfl
  rw [hcount]
  exact List.nodup_iff_count_le_one.mp hs.once who

theorem empty_queued : ({} : PFS).Queued := by
  refine ⟨empty_sound, List.nodup_nil, ?_⟩
  intro a l w ws hl
  cases hl

theorem run_replied {who : SessionId} (ops : List PFSOp) {s t : PFS} (hs : s.Queued)
    (hops : Along pfsStep Queueable s ops) (hwho : ∀ op ∈ ops, op.closes who = false)
    (h : run pfsStep s ops = .ok t) : PFS.Replied who ops s t := by
  induction ops generalizing s with
  | nil =>
      cases h
      exact ⟨[], (List.append_nil _).symm, by simp⟩
  | cons op ops ih =>
      obtain ⟨u, hu, h⟩ := run_cons_ok h
      obtain ⟨hsu, _, _, o, -, ho, -, hcount⟩ := step_queue hs hops.1 hu
      obtain ⟨o', ho', hcount'⟩ := ih hsu (hops.2 u hu)
        (fun op hop => hwho op (List.mem_cons_of_mem _ hop)) h
      refine ⟨o ++ o', ?_, ?_⟩
      · rw [ho', ho, List.append_assoc]
      · have hstep := (hcount who).2 (hwho op List.mem_cons_self)
        rw [List.countP_append, List.countP_cons]
        omega

/-- Where no session that waits asks again for what is held, and none closes
that alone keeps readers apart, the waiting are kept out by those who hold, and
every request for a lock is replied to once, with a hold that is counted. -/
theorem lockQueue_answers (pre post : List PFSOp)
    (hops : Along pfsStep Queueable {} (pre ++ post)) {s t : PFS}
    (hs : run pfsStep {} pre = .ok s) (ht : run pfsStep s post = .ok t) :
    t.KeptOut ∧ (∀ a l, t.lock a = some l → Counted l.lCnt (t.holds a)) ∧
      (∀ who, t.awaits who ≤ 1) ∧
      (∀ who, (∀ op ∈ post, op.closes who = false) → PFS.Replied who post s t) ∧
      ∀ op, post = [op] → s.Answered op t := by
  have hstep : ∀ s op t, PFS.Queued s → Queueable s op → pfsStep s op = .ok t → t.Queued :=
    fun s op t hs hop h => (step_queue hs hop h).1
  have hpost := hops.drop hs
  have hqs : s.Queued := run_invariant hstep empty_queued hops.take hs
  have hqt : t.Queued := run_invariant hstep hqs hpost ht
  refine ⟨hqt.keptOut, hqt.sound.count, hqt.awaits_le, ?_, ?_⟩
  · intro who hwho
    exact run_replied post hqs hpost hwho ht
  · rintro op rfl
    obtain ⟨u, hu, ht⟩ := run_cons_ok ht
    cases ht
    exact (step_queue hqs hpost.1 hu).2

/-- A writer waits for a writer and is given the lock when that unlocks. -/
theorem lockQueue_answers_waiting :
    ∃ s t, run pfsStep {} [.open (sessionOf 1 1), .open (sessionOf 2 1),
        .lock (sessionOf 1 1) "a" false false] = .ok s ∧
      run pfsStep s [.lock (sessionOf 2 1) "a" false false, .unlock (sessionOf 1 1) "a"] = .ok t ∧
      t.KeptOut ∧ PFS.Replied (sessionOf 2 1) [.lock (sessionOf 2 1) "a" false false,
        .unlock (sessionOf 1 1) "a"] s t := by
  have hops : Along pfsStep Queueable {} ([.open (sessionOf 1 1), .open (sessionOf 2 1),
      .lock (sessionOf 1 1) "a" false false] ++
      [.lock (sessionOf 2 1) "a" false false, .unlock (sessionOf 1 1) "a"]) := by
    refine ⟨⟨trivial, trivial⟩, fun s hs => ?_⟩
    cases hs
    refine ⟨⟨trivial, trivial⟩, fun s hs => ?_⟩
    cases hs
    refine ⟨⟨?_, .inl rfl⟩, fun s hs => ?_⟩
    · intro a l ha
      cases ha
    · cases hs
      refine ⟨⟨?_, .inl rfl⟩, fun s hs => ?_⟩
      · intro a l ha hl _
        cases ha
        cases hl
        constructor
        · intro l hl e he
          cases hl
          rw [List.mem_singleton.mp he]
          exact List.mem_cons_of_mem _ List.mem_cons_self
        · intro e he
          cases he
      · cases hs
        refine ⟨⟨?_, trivial⟩, fun _ _ => trivial⟩
        intro a ha _ l hl e he
        cases ha
        cases hl
        rw [List.mem_singleton.mp he]
        exact List.mem_cons_of_mem _ List.mem_cons_self
  have h := lockQueue_answers _ _ hops rfl rfl
  exact ⟨_, _, rfl, rfl, h.1, h.2.2.2.1 _ (by simp [PFSOp.closes])⟩

/-- A writer that waits closes, and the reader behind it waits on for readers.
A session that waits asks again, and its request is dropped. -/
theorem lockQueue_not_answers :
    (¬ ∀ ops t, run pfsStep {} ops = .ok t → t.KeptOut) ∧
      ¬ ∀ pre post s t who, run pfsStep {} pre = .ok s → run pfsStep s post = .ok t →
        (∀ op ∈ post, op.closes who = false) → PFS.Replied who post s t := by
  constructor
  · intro h
    have hk := h [.open (sessionOf 1 1), .open (sessionOf 2 1), .open (sessionOf 3 1),
      .lock (sessionOf 1 1) "a" true false, .lock (sessionOf 2 1) "a" false false,
      .lock (sessionOf 3 1) "a" true false, .close (sessionOf 2 1) false] _ rfl
    obtain ⟨-, hw⟩ := hk 0 ⟨sessionOf 3 1, 0, true⟩ [] rfl
    obtain ⟨j, hj, hwrite⟩ := hw rfl
    have hj : j = ⟨1, .lockReadHold, sessionOf 1 1, 0⟩ := List.mem_singleton.mp hj
    rw [hj] at hwrite
    cases hwrite
  · intro h
    obtain ⟨o, ho, hc⟩ := h [.open (sessionOf 1 1), .open (sessionOf 2 1),
      .lock (sessionOf 1 1) "a" false false, .lock (sessionOf 2 1) "a" false false]
      [.lock (sessionOf 2 1) "a" false false] _ _ (sessionOf 2 1) rfl rfl (by simp [PFSOp.closes])
    have hnil : o = [] := List.self_eq_append_right.mp ho
    rw [hnil] at hc
    cases hc

end PaxosSolutions
