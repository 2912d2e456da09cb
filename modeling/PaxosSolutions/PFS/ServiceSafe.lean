import PaxosSolutions.PFS.Service
import PaxosSolutions.PFS.LockRequests
import PaxosSolutions.PFS.QueueDelivery
import PaxosSolutions.PFS.PathRecords

/-!
# Requests that stop the file service

Every replica executes a request, and what fails in one fails in all. The
requests that find locks, queues and paths as they suppose them to be never
fail, and leave them well formed; those that do not are what any session can
send.
-/
namespace PaxosSolutions
open Lib NWGadget

variable {M : Type}

/-- The session has an adaptor. -/
def PFSService.Opened (who : SessionId) (s : PFSService M) : Prop :=
  who ∈ s.locks.adaptors ∧ who ∈ s.queues.adaptors ∧ who ∈ s.paths.adaptors

/-- What the session layer hands on: a command that is known, a message with a
right checksum, and the data that an `OUTOFBAND` request left. -/
def ServiceRequest.Intact (bad : M → Bool) : ServiceRequest M → Prop
  | .post _ m => bad m = false
  | .outOfBand none => False
  | .outOfBand (some (.post _ m)) => bad m = false
  | .other => False
  | _ => True

/-- What the session layer does: it hands on requests of open sessions, and puts
back what it took. -/
def Promised (bad : M → Bool) (s : PFSService M) : ServiceOp M → Prop
  | .accepted who r => s.Opened who ∧ r.Intact bad
  | .acceptPut who => 0 < s.eCnt who
  | _ => True

instance (bad : M → Bool) (r : ServiceRequest M) : Decidable (r.Intact bad) :=
  match r with
  | .post _ m => inferInstanceAs (Decidable (bad m = false))
  | .outOfBand none => inferInstanceAs (Decidable False)
  | .outOfBand (some (.post _ m)) => inferInstanceAs (Decidable (bad m = false))
  | .other => inferInstanceAs (Decidable False)
  | .outOfBand (some .short) | .outOfBand (some (.write ..)) | .outOfBand (some .other)
  | .write .. | .create .. | .delete .. | .truncate .. | .copy .. | .concat .. | .lock ..
  | .unlock .. | .unlockSuper .. | .eventDir .. | .eventLock .. | .mkdir .. | .rmdir ..
  | .peek .. | .peekAck .. | .eventQueue .. => inferInstanceAs (Decidable True)

instance (bad : M → Bool) (s : PFSService M) (op : ServiceOp M) : Decidable (Promised bad s op) :=
  match op with
  | .accepted who r => inferInstanceAs (Decidable
      ((who ∈ s.locks.adaptors ∧ who ∈ s.queues.adaptors ∧ who ∈ s.paths.adaptors) ∧
        r.Intact bad))
  | .acceptPut who => inferInstanceAs (Decidable (0 < s.eCnt who))
  | .open _ | .close .. | .acceptGet _ => inferInstanceAs (Decidable True)

/-- A request that finds the locks, queues and paths as it supposes them to be. -/
def Granted (bad : M → Bool) (s : PFSService M) (who : SessionId) : ServiceRequest M → Prop
  | .lock name bRead bTry => Usable s.locks (.lock who name bRead bTry)
  | .unlock name => Usable s.locks (.unlock who name)
  | .unlockSuper name lId => Usable s.locks (.unlockSuper who name lId)
  | .eventLock elId name elSet _ =>
      (elId ∈ s.locks.adaptors → elSet = false → s.locks.cLock name ≠ none) ∧
        (elId ∉ s.locks.adaptors → s.eCnt elId ≤ 0)
  | .peek name => Deliverable bad s.queues (.peek who name)
  | .peekAck name => Deliverable bad s.queues (.peekAck who name)
  | .eventQueue eqId name eqSet =>
      (eqId ∈ s.queues.adaptors → eqSet = false → s.queues.queue name ≠ none) ∧
        (eqId ∉ s.queues.adaptors → s.eCnt eqId ≤ 0) ∧ (0 < s.eCnt eqId → eqId = who)
  | .eventDir edId edName edSet =>
      (edId ∈ s.paths.adaptors → edSet = false → s.paths.pathGet edName ≠ none) ∧
        (edId ∉ s.paths.adaptors → s.eCnt edId ≤ 0) ∧
          Unshared s.paths (.eventDir who edId edName edSet true)
  | _ => True

/-- A session that may close. -/
def Closable (bad : M → Bool) (s : PFSService M) (who : SessionId) (bAbort : Bool)
    (ret : List Char → ℤ) : Prop :=
  Usable s.locks (.close who bAbort) ∧ Deliverable bad s.queues (.close who) ∧
    Unshared s.paths (.close who ret)

def Servable (bad : M → Bool) (s : PFSService M) (op : ServiceOp M) : Prop :=
  Promised bad s op ∧
    (∀ who r, op = .accepted who r → Granted bad s who r) ∧
      ∀ who bAbort ret, op = .close who bAbort ret → Closable bad s who bAbort ret

/-- The locks, the queues and the paths are kept. -/
structure PFSService.Safe (bad : M → Bool) (s : PFSService M) : Prop where
  locks : s.locks.Sound
  queues : s.queues.Fair bad none
  paths : s.paths.Kept
  eCnt : ∀ who, 0 ≤ s.eCnt who

section Handlers
variable {bad : M → Bool} {s t u : PFSService M} {who id put : SessionId}

theorem onLocks_ok {f : PFS → Except PFSFault PFS} (hs : s.Safe bad)
    (h : ∃ l, f s.locks = .ok l ∧ l.Sound) :
    ∃ t, s.onLocks f = .ok t ∧ t.Safe bad ∧ t.queues = s.queues ∧ t.paths = s.paths ∧
      t.eCnt = s.eCnt := by
  obtain ⟨l, hl, hsl⟩ := h
  refine ⟨{ s with locks := l }, ?_, ⟨hsl, hs.queues, hs.paths, hs.eCnt⟩, rfl, rfl, rfl⟩
  unfold PFSService.onLocks
  rw [hl]

theorem onQueues_ok {f : PFSQueues M → Except QueueFault (PFSQueues M)} (hs : s.Safe bad)
    (h : ∃ q, f s.queues = .ok q ∧ q.Fair bad none) :
    ∃ t, s.onQueues f = .ok t ∧ t.Safe bad ∧ t.locks = s.locks ∧ t.paths = s.paths ∧
      t.eCnt = s.eCnt := by
  obtain ⟨q, hq, hfq⟩ := h
  refine ⟨{ s with queues := q }, ?_, ⟨hs.locks, hfq, hs.paths, hs.eCnt⟩, rfl, rfl, rfl⟩
  unfold PFSService.onQueues
  rw [hq]

theorem onPaths_ok {f : PFSPaths → Except PathFault PFSPaths} (hs : s.Safe bad)
    (h : ∃ p, f s.paths = .ok p ∧ p.Kept) :
    ∃ t, s.onPaths f = .ok t ∧ t.Safe bad ∧ t.locks = s.locks ∧ t.queues = s.queues ∧
      t.eCnt = s.eCnt := by
  obtain ⟨p, hp, hkp⟩ := h
  refine ⟨{ s with paths := p }, ?_, ⟨hs.locks, hs.queues, hkp, hs.eCnt⟩, rfl, rfl, rfl⟩
  unfold PFSService.onPaths
  rw [hp]

theorem Harmless.kept {s : PFSPaths} {r : Except PathFault PFSPaths} (h : Harmless s r) :
    ∃ t, r = .ok t ∧ t.Kept := by
  obtain ⟨t, ht, hkt, -⟩ := h
  exact ⟨t, ht, hkt⟩

theorem entryS_ok {s : PFSPaths} (hs : s.Kept) (pName : List Char) (edMode : PFSDirEntryMode)
    (bChanged bError : Bool) : Harmless s (pfsEntryS who pName edMode bChanged bError s) := by
  unfold pfsEntryS
  apply updateDir_then hs .refl
  intro t hal
  exact .alike hs (hal.trans (.send (by simp)))

theorem copyS_ok {s : PFSPaths} (hs : s.Kept) (cTo : List Char) (retDelete retCreate ret : ℤ) :
    Harmless s (pfsCopyS who cTo retDelete retCreate ret s) := by
  unfold pfsCopyS
  apply updateDir_then hs .refl
  intro t hal
  apply updateDir_then hs hal
  intro u hal'
  exact .alike hs (hal'.trans (.send (by simp)))

theorem dirS_ok {s : PFSPaths} (hs : s.Kept) (pName : List Char) (edMode : PFSDirEntryMode)
    (ret : ℤ) : Harmless s (pfsDirS who pName edMode ret s) := by
  unfold pfsDirS
  split_ifs
  · obtain ⟨t, ht, hal⟩ := updateDirAt_ok hs.recorded (rootOmitted (dirname pName)) edMode
      (basename pName)
    simp only [bind, Except.bind]
    rw [ht]
    exact .alike hs (hal.trans (.send (by simp)))
  · exact .alike hs (.send (by simp))

theorem PFSService.Safe.acceptGet (hs : s.Safe bad) (who : SessionId) :
    (s.acceptGet who).Safe bad := by
  refine ⟨hs.locks, hs.queues, hs.paths, ?_⟩
  intro v
  change 0 ≤ Function.update s.eCnt who (s.eCnt who + 1) v
  rw [Function.update_apply]
  split_ifs
  · exact Int.add_nonneg (hs.eCnt who) (by omega)
  · exact hs.eCnt v

/-- What was taken is put back. -/
theorem acceptPut_ok (hs : s.Safe bad) (hst : t.Safe bad)
    (hct : t.eCnt = (s.acceptGet who).eCnt) :
    ∃ u, t.acceptPut who = .ok u ∧ u.Safe bad ∧ u.eCnt = s.eCnt := by
  have hself : t.eCnt who = s.eCnt who + 1 := by
    rw [hct]
    exact Function.update_self ..
  have heq : Function.update t.eCnt who (t.eCnt who - 1) = s.eCnt := by
    rw [hself, hct]
    unfold PFSService.acceptGet
    rw [Function.update_idem, Int.add_sub_cancel, Function.update_eq_self]
  have hnn := hs.eCnt who
  refine ⟨_, if_neg (by omega), ⟨hst.locks, hst.queues, hst.paths, ?_⟩, heq⟩
  rw [heq]
  exact hs.eCnt

/-- The accept object that was taken is put back. -/
theorem eventS_ok (hs : s.Safe bad) (hput : 0 < s.eCnt id → id = put)
    {f : Bool → PFSService M → Except ServiceFault (PFSService M)}
    (hf : ∀ b u, u.Safe bad → u.locks = s.locks → u.queues = s.queues → u.paths = s.paths →
      (b = true → 0 < s.eCnt id) → ∃ t, f b u = .ok t ∧ t.Safe bad ∧ t.eCnt = u.eCnt) :
    ∃ t, pfsEventS id put f s = .ok t ∧ t.Safe bad ∧ t.eCnt = s.eCnt := by
  unfold pfsEventS
  split_ifs with hcnt
  · exact hf false s hs rfl rfl rfl (by simp)
  · have hpos : 0 < s.eCnt id := by omega
    obtain rfl := hput hpos
    obtain ⟨t, ht, hst, hct⟩ := hf true (s.acceptGet id) (hs.acceptGet id) rfl rfl rfl fun _ => hpos
    obtain ⟨u, hu, hsu, hcu⟩ := acceptPut_ok hs hst hct
    refine ⟨u, ?_, hsu, hcu⟩
    simp only [bind, Except.bind]
    rw [ht]
    exact hu

/-- A client without an accept object is not found. -/
theorem unbound {b : Bool} {n : ℤ} (hb : b = true → 0 < n) (h : n ≤ 0) : b = false := by
  cases b with
  | false => rfl
  | true => exact absurd (hb rfl) (not_lt.mpr h)

theorem outOfBand_ok {pData : Option (OutOfBandData M)} (hs : s.Safe bad) (hwho : s.Opened who)
    (hr : (ServiceRequest.outOfBand pData).Intact bad) :
    ∃ t, pfsOutOfBandReq bad who s pData = .ok t ∧ t.Safe bad ∧ t.eCnt = s.eCnt := by
  have hpaths {f : PFSPaths → Except PathFault PFSPaths} (h : Harmless s.paths (f s.paths)) :
      ∃ t, s.onPaths f = .ok t ∧ t.Safe bad ∧ t.eCnt = s.eCnt := by
    obtain ⟨t, ht, hst, -, -, hct⟩ := onPaths_ok hs h.kept
    exact ⟨t, ht, hst, hct⟩
  rcases pData with _ | _ | ⟨name, m⟩ | ⟨wName, bEphemeral, ret, retCreate, retAgain⟩ | _
  · exact hr.elim
  · exact hpaths (f := fun p => .ok (p.send (.rpl who true))) (.alike hs.paths (.send (by simp)))
  · obtain ⟨t, ht, hst, -, -, hct⟩ := onQueues_ok hs (post_ok hs.queues hr)
    exact ⟨t, ht, hst, hct⟩
  · exact hpaths (writeS_ok hs.paths (fun _ => hwho.2.2) wName ret retCreate retAgain)
  · exact hpaths (f := fun p => .ok (p.send (.rpl who false))) (.alike hs.paths (.send (by simp)))

theorem accepted_ok {r : ServiceRequest M} (hs : s.Safe bad) (hwho : s.Opened who)
    (hr : r.Intact bad) (h : Granted bad s who r) :
    ∃ t, pfsAccepted bad who s r = .ok t ∧ t.Safe bad ∧ t.eCnt = s.eCnt := by
  have hpaths {f : PFSPaths → Except PathFault PFSPaths} (h : Harmless s.paths (f s.paths)) :
      ∃ t, s.onPaths f = .ok t ∧ t.Safe bad ∧ t.eCnt = s.eCnt := by
    obtain ⟨t, ht, hst, -, -, hct⟩ := onPaths_ok hs h.kept
    exact ⟨t, ht, hst, hct⟩
  have hqueues {f : PFSQueues M → Except QueueFault (PFSQueues M)}
      (h : ∃ q, f s.queues = .ok q ∧ q.Fair bad none) :
      ∃ t, s.onQueues f = .ok t ∧ t.Safe bad ∧ t.eCnt = s.eCnt := by
    obtain ⟨t, ht, hst, -, -, hct⟩ := onQueues_ok hs h
    exact ⟨t, ht, hst, hct⟩
  have hlocks {f : PFS → Except PFSFault PFS} (h : ∃ l, f s.locks = .ok l ∧ l.Sound) :
      ∃ t, s.onLocks f = .ok t ∧ t.Safe bad ∧ t.eCnt = s.eCnt := by
    obtain ⟨t, ht, hst, -, -, hct⟩ := onLocks_ok hs h
    exact ⟨t, ht, hst, hct⟩
  cases r with
  | write wName bEphemeral ret retCreate retAgain =>
      exact hpaths (writeS_ok hs.paths (fun _ => hwho.2.2) wName ret retCreate retAgain)
  | create cName bEphemeral ret =>
      exact hpaths (createS_ok hs.paths (fun _ => hwho.2.2) cName ret)
  | delete dName ret => exact hpaths (deleteS_ok hs.paths dName ret)
  | truncate tName ret => exact hpaths (entryS_ok hs.paths _ _ _ _)
  | copy cTo retDelete retCreate ret => exact hpaths (copyS_ok hs.paths cTo retDelete retCreate ret)
  | concat cTo ret => exact hpaths (entryS_ok hs.paths _ _ _ _)
  | lock name bRead bTry => exact hlocks (tryLockS_ok hs.locks hwho.1 h)
  | unlock name => exact hlocks (unlockS_ok hs.locks hwho.1 h)
  | unlockSuper name lId => exact hlocks (unlockSuperS_ok hs.locks h)
  | outOfBand pData => exact outOfBand_ok hs hwho hr
  | eventDir edId edName edSet =>
      obtain ⟨hset, hbound, hlast⟩ := h
      rw [pfsAccepted]
      refine eventS_ok hs (fun _ => rfl) ?_
      intro b u hu _ _ hp hb
      rw [← hp] at hset hbound hlast
      have hok : Harmless u.paths (pfsEventDirS who edId edName edSet b u.paths) :=
        eventDirS_ok hu.paths hset (fun hno => unbound hb (hbound hno)) hlast
      obtain ⟨t, ht, hst, -, -, hct⟩ := onPaths_ok hu hok.kept
      exact ⟨t, ht, hst, hct⟩
  | eventLock elId name elSet elBRecall =>
      obtain ⟨hset, hbound⟩ := h
      rw [pfsAccepted]
      refine eventS_ok hs (fun _ => rfl) ?_
      intro b u hu hl _ _ hb
      rw [← hl] at hset hbound
      obtain ⟨t, ht, hst, -, -, hct⟩ := onLocks_ok hu
        (eventLockS_ok hu.locks hset fun hno => unbound hb (hbound hno))
      exact ⟨t, ht, hst, hct⟩
  | mkdir mName ret => exact hpaths (dirS_ok hs.paths mName .create ret)
  | rmdir rName ret => exact hpaths (dirS_ok hs.paths rName .delete ret)
  | post name m => exact hqueues (post_ok hs.queues hr)
  | peek name =>
      have hop : Deliverable bad s.queues (.peek who name) := h
      exact hqueues (queueStep_ok hs.queues hop)
  | peekAck name =>
      have hop : Deliverable bad s.queues (.peekAck who name) := h
      exact hqueues (queueStep_ok hs.queues hop)
  | eventQueue eqId name eqSet =>
      obtain ⟨hset, hbound, hput⟩ := h
      rw [pfsAccepted]
      refine eventS_ok hs hput ?_
      intro b u hu _ hq _ hb
      rw [← hq] at hset hbound
      obtain ⟨t, ht, hst, -, -, hct⟩ := onQueues_ok hu
        (eventQueue_ok hu.queues hset fun hno => unbound hb (hbound hno))
      exact ⟨t, ht, hst, hct⟩
  | other => exact hr.elim

/-- The executor's own reference to a session does not matter to a request. -/
theorem Granted.acceptGet {r : ServiceRequest M} (hwho : s.Opened who) (h : Granted bad s who r) :
    Granted bad (s.acceptGet who) who r := by
  have hsame : ∀ id, id ≠ who → (s.acceptGet who).eCnt id = s.eCnt id :=
    fun id hid => Function.update_of_ne hid _ _
  cases r with
  | eventDir edId edName edSet =>
      obtain ⟨hset, hbound, hlast⟩ := h
      refine ⟨hset, ?_, hlast⟩
      intro hno
      rw [hsame edId (ne_of_mem_of_not_mem hwho.2.2 hno).symm]
      exact hbound hno
  | eventLock elId name elSet elBRecall =>
      obtain ⟨hset, hbound⟩ := h
      refine ⟨hset, ?_⟩
      intro hno
      rw [hsame elId (ne_of_mem_of_not_mem hwho.1 hno).symm]
      exact hbound hno
  | eventQueue eqId name eqSet =>
      obtain ⟨hset, hbound, hput⟩ := h
      refine ⟨hset, ?_, ?_⟩
      · intro hno
        rw [hsame eqId (ne_of_mem_of_not_mem hwho.2.1 hno).symm]
        exact hbound hno
      · intro hpos
        by_contra hne
        rw [hsame eqId hne] at hpos
        exact hne (hput hpos)
  | _ => exact h

/-- A request or a closing that is granted succeeds and keeps everything. -/
theorem serviceStep_ok {op : ServiceOp M} (hs : s.Safe bad) (hop : Servable bad s op) :
    ∃ t, serviceStep bad s op = .ok t ∧ t.Safe bad := by
  obtain ⟨hprom, hgranted, hclose⟩ := hop
  cases op with
  | «open» who =>
      obtain ⟨t, ht, hst, -⟩ := onQueues_ok (f := fun q => queueStep bad q (.open who)) hs
        (queueStep_ok hs.queues trivial)
      have hopen : Safe (pfsStep t.locks (.open who)) := step_safe hst.locks trivial
      obtain ⟨u, hu, hsu, -⟩ := onLocks_ok (f := fun l => pfsStep l (.open who)) hst
        ⟨_, rfl, hopen⟩
      obtain ⟨v, hv, hsv, -⟩ := onPaths_ok (f := fun p => pathStep p (.open who)) hsu
        ⟨_, rfl, hsu.paths.open who⟩
      refine ⟨v, ?_, hsv⟩
      simp only [serviceStep, bind, Except.bind]
      rw [ht]
      simp only
      rw [hu]
      exact hv
  | accepted who r =>
      obtain ⟨t, ht, hst, hct⟩ := accepted_ok (hs.acceptGet who) hprom.1 hprom.2
        ((hgranted who r rfl).acceptGet hprom.1)
      obtain ⟨u, hu, hsu, -⟩ := acceptPut_ok hs hst hct
      refine ⟨u, ?_, hsu⟩
      simp only [serviceStep, executeAccepted, bind, Except.bind]
      rw [ht]
      exact hu
  | close who bAbort ret =>
      obtain ⟨hlock, hqueue, hpath⟩ := hclose who bAbort ret rfl
      obtain ⟨q, hq, hfq, -⟩ := queueClose_ok hs.queues hqueue
      obtain ⟨t, ht, hst, hlt, hpt, -⟩ := onQueues_ok (f := pfsQueueClose bad who) hs ⟨q, hq, hfq⟩
      rw [← hlt] at hlock
      obtain ⟨u, hu, hsu, -, hpu, -⟩ := onLocks_ok (f := pfsAdaptorClose who bAbort) hst
        (adaptorClose_ok hst.locks hlock)
      rw [← hpt, ← hpu] at hpath
      obtain ⟨p, hp, hkp, -⟩ := pathClose_ok hsu.paths ret hpath.1 hpath.2
      obtain ⟨v, hv, hsv, -⟩ := onPaths_ok (f := pfsPathClose who ret) hsu ⟨p, hp, hkp⟩
      refine ⟨v, ?_, hsv⟩
      simp only [serviceStep, pfsServiceClose, bind, Except.bind]
      rw [ht]
      simp only
      rw [hu]
      exact hv
  | acceptGet who => exact ⟨_, rfl, hs.acceptGet who⟩
  | acceptPut who =>
      have hpos : 0 < s.eCnt who := hprom
      refine ⟨_, if_neg (by omega), hs.locks, hs.queues, hs.paths, ?_⟩
      intro v
      change 0 ≤ Function.update s.eCnt who (s.eCnt who - 1) v
      rw [Function.update_apply]
      split_ifs
      · omega
      · exact hs.eCnt v

theorem empty_safe : ({} : PFSService M).Safe bad :=
  ⟨empty_sound, empty_fair, empty_kept, fun _ => le_rfl⟩

end Handlers

/-- The locks, the queues and the paths are well formed. -/
structure PFSService.WellFormed (s : PFSService M) : Prop where
  locks : s.locks.Exclusive
  queues : s.queues.Delivers
  waits : ∀ w ∈ s.queues.waits, ∃ q, s.queues.queue w.qName = some q
  joints : ∀ j ∈ s.queues.joints, ∃ q, s.queues.queue j.qName = some q
  paths : s.paths.Counted

/-- What a session can send: cancellations of events that it never set, an
acknowledgement without a peek, a second peek, a second lock, and events of a
queue for another client. -/
def stopping : List (ServiceFault × List (ServiceRequest String)) :=
  [(.path .assertPath, [.eventDir (sessionOf 1 1) ['d'] false]),
    (.lock .assertLock, [.eventLock (sessionOf 1 1) "a" false false]),
    (.queue .assertQueue, [.eventQueue (sessionOf 1 1) "q" false]),
    (.queue .nullQueue, [.post "q" "m", .peekAck "q"]),
    (.queue .relinked, [.peek "q", .peek "r"]),
    (.lock .useAfterFree, [.lock "a" false false, .lock "a" false false]),
    (.assertECnt, [.eventQueue (sessionOf 2 1) "q" true, .eventQueue (sessionOf 2 1) "q" true])]

end PaxosSolutions
