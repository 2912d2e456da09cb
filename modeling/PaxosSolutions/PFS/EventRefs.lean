import PaxosSolutions.PFS.Service

/-!
# Accept objects in the requests on events

A request on an event takes the accept object of the client it is for and puts
one back. `e_Cnt` of every accept object is what it was if these are the same.
-/
namespace PaxosSolutions
open Lib NWGadget

variable {M : Type} {bad : M → Bool} {who : SessionId}

/-! ### What leaves the accept objects alone -/

namespace PFSService

variable {s t : PFSService M}

theorem onLocks_eCnt {f : PFS → Except PFSFault PFS} (h : s.onLocks f = .ok t) :
    t.eCnt = s.eCnt := by
  unfold onLocks at h
  cases hf : f s.locks with
  | error e => simp [hf] at h
  | ok l =>
      rw [hf] at h
      cases h
      rfl

theorem onQueues_eCnt {f : PFSQueues M → Except QueueFault (PFSQueues M)}
    (h : s.onQueues f = .ok t) : t.eCnt = s.eCnt := by
  unfold onQueues at h
  cases hf : f s.queues with
  | error e => simp [hf] at h
  | ok q =>
      rw [hf] at h
      cases h
      rfl

theorem onPaths_eCnt {f : PFSPaths → Except PathFault PFSPaths} (h : s.onPaths f = .ok t) :
    t.eCnt = s.eCnt := by
  unfold onPaths at h
  cases hf : f s.paths with
  | error e => simp [hf] at h
  | ok p =>
      rw [hf] at h
      cases h
      rfl

theorem acceptPut_eCnt (h : s.acceptPut who = .ok t) :
    t.eCnt = Function.update s.eCnt who (s.eCnt who - 1) := by
  unfold acceptPut at h
  split at h
  · cases h
  · cases h
    rfl

end PFSService

/-! ### The requests on events -/

/-- `EVENT_DIR`, `EVENT_LOCK` and `EVENT_QUEUE` -/
def ServiceRequest.IsEvent : ServiceRequest M → Prop
  | .eventDir .. | .eventLock .. | .eventQueue .. => True
  | _ => False

/-- The request puts back the accept object it takes: an `EVENT_QUEUE` does so
only for a client that is not there or is the one that asks. -/
def ServiceRequest.Balanced (who : SessionId) (s : PFSService M) : ServiceRequest M → Prop
  | .eventQueue eqId _ _ => 0 < s.eCnt eqId → eqId = who
  | _ => True

variable {s t : PFSService M} {id put a : SessionId} {r : ServiceRequest M}
  {f : Bool → PFSService M → Except ServiceFault (PFSService M)}

theorem pfsEventS_eCnt (hf : ∀ b s t, f b s = .ok t → t.eCnt = s.eCnt)
    (h : pfsEventS id put f s = .ok t) :
    s.eCnt id ≤ 0 ∧ t.eCnt = s.eCnt ∨ 0 < s.eCnt id ∧
      t.eCnt = Function.update (s.acceptGet id).eCnt put ((s.acceptGet id).eCnt put - 1) := by
  unfold pfsEventS at h
  split at h
  · rename_i hid
    exact .inl ⟨hid, hf _ _ _ h⟩
  · rename_i hid
    obtain ⟨u, hu, hput⟩ := except_bind_ok h
    rw [PFSService.acceptPut_eCnt hput, hf _ _ _ hu]
    exact .inr ⟨not_le.mp hid, rfl⟩

theorem get_put_eCnt (s : PFSService M) (id : SessionId) :
    Function.update (s.acceptGet id).eCnt id ((s.acceptGet id).eCnt id - 1) = s.eCnt := by
  simp [PFSService.acceptGet]

/-- The accept object that was taken is not put back. -/
theorem get_put_other (s : PFSService M) (h : id ≠ put) :
    Function.update (s.acceptGet id).eCnt put ((s.acceptGet id).eCnt put - 1) ≠ s.eCnt := by
  intro heq
  have := congrFun heq id
  simp [PFSService.acceptGet, Function.update_of_ne h] at this

theorem pfsEventS_iff (hf : ∀ b s t, f b s = .ok t → t.eCnt = s.eCnt)
    (h : pfsEventS id put f s = .ok t) : t.eCnt = s.eCnt ↔ (0 < s.eCnt id → id = put) := by
  rcases pfsEventS_eCnt hf h with ⟨hid, hcnt⟩ | ⟨hid, hcnt⟩
  · exact iff_of_true hcnt (fun hpos => absurd hpos (not_lt.mpr hid))
  · rw [hcnt]
    constructor
    · intro heq _
      by_contra hne
      exact get_put_other s hne heq
    · intro hsame
      cases hsame hid
      exact get_put_eCnt s id

theorem pfsEventS_same (hf : ∀ b s t, f b s = .ok t → t.eCnt = s.eCnt)
    (h : pfsEventS id id f s = .ok t) : t.eCnt = s.eCnt :=
  (pfsEventS_iff hf h).mpr fun _ => rfl

/-- A request on an event leaves `e_Cnt` as it was if and only if it is balanced. -/
theorem pfsAccepted_event (hr : r.IsEvent) (h : pfsAccepted bad who s r = .ok t) :
    t.eCnt = s.eCnt ↔ r.Balanced who s := by
  unfold pfsAccepted at h
  cases r with
  | eventDir edId edName edSet =>
      exact iff_of_true (pfsEventS_same (fun _ _ _ h => PFSService.onPaths_eCnt h) h) trivial
  | eventLock elId name elSet elBRecall =>
      exact iff_of_true (pfsEventS_same (fun _ _ _ h => PFSService.onLocks_eCnt h) h) trivial
  | eventQueue eqId name eqSet =>
      exact pfsEventS_iff (fun _ _ _ h => PFSService.onQueues_eCnt h) h
  | _ => cases hr

/-- The other requests have nothing to do with accept objects. -/
theorem pfsAccepted_other (hr : ¬ r.IsEvent) (h : pfsAccepted bad who s r = .ok t) :
    t.eCnt = s.eCnt := by
  unfold pfsAccepted pfsOutOfBandReq at h
  cases r with
  | lock | unlock | unlockSuper => exact PFSService.onLocks_eCnt h
  | post | peek | peekAck => exact PFSService.onQueues_eCnt h
  | write | create | delete | truncate | copy | concat | mkdir | rmdir =>
      exact PFSService.onPaths_eCnt h
  | outOfBand pData =>
      rcases pData with _ | (_ | _ | _ | _)
      · cases h
      · exact PFSService.onPaths_eCnt h
      · exact PFSService.onQueues_eCnt h
      · exact PFSService.onPaths_eCnt h
      · exact PFSService.onPaths_eCnt h
  | eventDir | eventLock | eventQueue => exact absurd trivial hr
  | other => cases h

theorem pfsAccepted_eCnt (hr : r.Balanced who s) (h : pfsAccepted bad who s r = .ok t) :
    t.eCnt = s.eCnt := by
  by_cases hev : r.IsEvent
  · exact (pfsAccepted_event hev h).mpr hr
  · exact pfsAccepted_other hev h

/-! ### Runs of the service -/

/-- The session's own accept object, that `ThreadExecute` has taken, does not
make a request balanced or not. -/
theorem ServiceRequest.Balanced.acceptGet (hr : r.Balanced who s) :
    r.Balanced who (s.acceptGet who) := by
  cases r with
  | eventQueue eqId name eqSet =>
      intro hpos
      by_contra hne
      refine hne (hr ?_)
      simpa [PFSService.acceptGet, Function.update_of_ne hne] using hpos
  | _ => trivial

theorem executeAccepted_eCnt (hr : r.Balanced who s) (h : executeAccepted bad who r s = .ok t) :
    t.eCnt = s.eCnt := by
  obtain ⟨u, hu, hput⟩ := except_bind_ok h
  rw [PFSService.acceptPut_eCnt hput, pfsAccepted_eCnt hr.acceptGet hu]
  exact get_put_eCnt s who

/-- The accept objects that the session layer takes, less those it puts back. -/
def ServiceOp.taken (a : SessionId) : ServiceOp M → ℤ
  | .acceptGet who => if who = a then 1 else 0
  | .acceptPut who => if who = a then -1 else 0
  | _ => 0

/-- Every request is balanced in the state it is executed in. -/
def BalancedOp (s : PFSService M) : ServiceOp M → Prop
  | .accepted who r => r.Balanced who s
  | _ => True

instance (s : PFSService M) (op : ServiceOp M) : Decidable (BalancedOp s op) :=
  match op with
  | .accepted who (.eventQueue eqId _ _) =>
      inferInstanceAs (Decidable (0 < s.eCnt eqId → eqId = who))
  | .accepted _ (.write ..) | .accepted _ (.create ..) | .accepted _ (.delete ..)
  | .accepted _ (.truncate ..) | .accepted _ (.copy ..) | .accepted _ (.concat ..)
  | .accepted _ (.lock ..) | .accepted _ (.unlock ..) | .accepted _ (.unlockSuper ..)
  | .accepted _ (.outOfBand ..) | .accepted _ (.eventDir ..) | .accepted _ (.eventLock ..)
  | .accepted _ (.mkdir ..) | .accepted _ (.rmdir ..) | .accepted _ (.post ..)
  | .accepted _ (.peek ..) | .accepted _ (.peekAck ..) | .accepted _ .other
  | .open _ | .close .. | .acceptGet _ | .acceptPut _ => inferInstanceAs (Decidable True)

theorem serviceStep_eCnt {op : ServiceOp M} (hop : BalancedOp s op)
    (h : serviceStep bad s op = .ok t) (a : SessionId) : t.eCnt a = s.eCnt a + op.taken a := by
  cases op with
  | «open» who =>
      obtain ⟨u, hu, h⟩ := except_bind_ok h
      obtain ⟨v, hv, h⟩ := except_bind_ok h
      rw [PFSService.onPaths_eCnt h, PFSService.onLocks_eCnt hv, PFSService.onQueues_eCnt hu]
      exact (add_zero _).symm
  | accepted who r =>
      rw [executeAccepted_eCnt hop h]
      exact (add_zero _).symm
  | close who bAbort ret =>
      obtain ⟨u, hu, h⟩ := except_bind_ok h
      obtain ⟨v, hv, h⟩ := except_bind_ok h
      rw [PFSService.onPaths_eCnt h, PFSService.onLocks_eCnt hv, PFSService.onQueues_eCnt hu]
      exact (add_zero _).symm
  | acceptGet who =>
      cases h
      by_cases ha : who = a
      · subst ha
        simp [PFSService.acceptGet, ServiceOp.taken]
      · simp [PFSService.acceptGet, ServiceOp.taken, Function.update_of_ne (Ne.symm ha), ha]
  | acceptPut who =>
      rw [PFSService.acceptPut_eCnt h]
      by_cases ha : who = a
      · subst ha
        simp [ServiceOp.taken, sub_eq_add_neg]
      · simp [ServiceOp.taken, Function.update_of_ne (Ne.symm ha), ha]

theorem serviceRun_eCnt {ops : List (ServiceOp M)}
    (hC : Along (serviceStep bad) BalancedOp s ops)
    (h : run (serviceStep bad) s ops = .ok t) (a : SessionId) :
    t.eCnt a = s.eCnt a + (ops.map (ServiceOp.taken a)).sum := by
  induction ops generalizing s with
  | nil =>
      cases h
      simp
  | cons op ops ih =>
      obtain ⟨u, hu, h⟩ := run_cons_ok h
      rw [ih (hC.2 u hu) h, serviceStep_eCnt hC.1 hu a, List.map_cons, List.sum_cons, add_assoc]

/-- Two clients with their accept objects. -/
def twoClients : List (ServiceOp String) :=
  [.open (sessionOf 1 1), .open (sessionOf 2 1), .acceptGet (sessionOf 1 1),
    .acceptGet (sessionOf 2 1)]

end PaxosSolutions
