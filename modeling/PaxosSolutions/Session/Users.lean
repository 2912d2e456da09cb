import PaxosSolutions.Session.Execute
import Mathlib.Data.List.Perm.Basic

/-!
# The users of the accept objects

Connections, workers and the executor each have a reference to the object they
use. Changes of what an object holds leave the references alone.
-/
namespace PaxosSolutions
open Lib NWGadget
variable {σ : Type}

/-- The object that `ThreadExecute` has got. -/
def ExecuteAt.holds : ExecuteAt → Option SessionId
  | .recv | .switch _ false => none
  | .isAccepted m | .seqWait m | .acceptedStart m | .switch m true | .acceptedEnd m =>
      some m.hId.toSessionId

namespace PaxosAcceptor

/-- The references of connections and workers. -/
def users (r : PaxosAcceptor σ) (s : SessionId) : ℕ :=
  r.conns.count s + (r.workers.map Worker.session).count s

def holders (r : PaxosAcceptor σ) (s : SessionId) : ℕ :=
  r.users s + if r.stage.holds = some s then 1 else 0

/-- The count of each object is the number of its users. -/
def Counted (r : PaxosAcceptor σ) : Prop := r.cAccept.Held r.holders

variable {r t u : PaxosAcceptor σ} {s j : SessionId}

/-! ### Changes of accept objects -/

theorem accept_update {g : PaxosAccept → PaxosAccept} :
    (r.update s g).accept j = if j = s then (r.accept j).map g else r.accept j :=
  GElmCtrl.val_change

/-- Only what the objects hold may change, and what was called or sent. -/
structure Keeps (r t : PaxosAcceptor σ) : Prop where
  conns : t.conns = r.conns
  workers : t.workers = r.workers
  stage : t.stage = r.stage
  held : ∀ h, r.cAccept.Held h → t.cAccept.Held h
  maxCnt : t.cAccept.geMaxCnt = r.cAccept.geMaxCnt
  length : t.cAccept.geLnk.length = r.cAccept.geLnk.length
  isSome : ∀ j, (t.accept j).isSome = (r.accept j).isSome

theorem Keeps.refl (r : PaxosAcceptor σ) : Keeps r r :=
  ⟨rfl, rfl, rfl, fun _ h => h, rfl, rfl, fun _ => rfl⟩

theorem Keeps.trans (h₁ : Keeps r t) (h₂ : Keeps t u) : Keeps r u where
  conns := h₂.conns.trans h₁.conns
  workers := h₂.workers.trans h₁.workers
  stage := h₂.stage.trans h₁.stage
  held := fun h hr => h₂.held h (h₁.held h hr)
  maxCnt := h₂.maxCnt.trans h₁.maxCnt
  length := h₂.length.trans h₁.length
  isSome := fun j => (h₂.isSome j).trans (h₁.isSome j)

theorem update_keeps {g : PaxosAccept → PaxosAccept} : Keeps r (r.update s g) where
  conns := rfl
  workers := rfl
  stage := rfl
  held := fun _ hr => hr.change
  maxCnt := rfl
  length := List.length_map _
  isSome := by
    intro j
    rw [accept_update]
    split_ifs
    · exact Option.isSome_map
    · rfl

theorem send_keeps {read : Bool} : Keeps r (r.send s read) := by
  unfold send
  split
  · exact Keeps.refl r
  · exact ⟨rfl, rfl, rfl, fun _ h => h, rfl, rfl, fun _ => rfl⟩

theorem count_keeps : Keeps r r.count := ⟨rfl, rfl, rfl, fun _ h => h, rfl, rfl, fun _ => rfl⟩

theorem call_keeps {x : σ} {m : PaxosSessionHead} : Keeps r (r.call x m) :=
  ⟨rfl, rfl, rfl, fun _ h => h, rfl, rfl, fun _ => rfl⟩

theorem tag_keeps : Keeps r (r.tag s) := ⟨rfl, rfl, rfl, fun _ h => h, rfl, rfl, fun _ => rfl⟩

theorem untag_keeps : Keeps r (r.untag s) := ⟨rfl, rfl, rfl, fun _ h => h, rfl, rfl, fun _ => rfl⟩

theorem reply_keeps {b : Bool} {m : NWGadget.Msg} : Keeps r (r.reply s b m) :=
  update_keeps.trans send_keeps

theorem isAccepted_keeps {m : PaxosSessionHead} {n : ℤ} (h : r.isAccepted m = .ok (t, n)) :
    Keeps r t := by
  unfold isAccepted at h
  split at h
  · cases h
  · split at h
    · cases h
    · cases h
      split_ifs
      · exact update_keeps.trans send_keeps
      · exact update_keeps

theorem act_keeps {f : AcceptorIF σ} {x : AppAct} (h : act f r x = .ok t) : Keeps r t := by
  cases x with
  | replyByMsg s m =>
      cases h
      split_ifs
      · exact reply_keeps
      · exact Keeps.refl r
  | eventRaise s bytes =>
      unfold act at h
      simp only at h
      split at h
      · cases h
        exact Keeps.refl _
      · split at h
        · cases h
        · cases h
          split_ifs
          · exact update_keeps.trans send_keeps
          · exact update_keeps

theorem acts_keeps {f : AcceptorIF σ} {xs : List AppAct} (h : r.acts f xs = .ok t) :
    Keeps r t := by
  induction xs generalizing r with
  | nil =>
      cases h
      exact Keeps.refl _
  | cons x xs ih =>
      obtain ⟨u, hu, h⟩ := except_bind_ok h
      exact (act_keeps hu).trans (ih h)

theorem Keeps.holders (hk : Keeps r t) : t.holders = r.holders := by
  unfold PaxosAcceptor.holders users
  rw [hk.conns, hk.workers, hk.stage]

theorem Keeps.counted (hk : Keeps r t) (hr : r.Counted) : t.Counted := by
  unfold Counted
  rw [hk.holders]
  exact hk.held _ hr

theorem sessionClose_keeps {f : AcceptorIF σ} {m : PaxosSessionHead} {n : ℤ}
    (h : sessionClose f m r = .ok (t, n)) : Keeps r t := by
  unfold sessionClose at h
  simp only at h
  split at h
  · cases h
  · split_ifs at h
    · cases h
      exact Keeps.refl r
    · split at h
      · cases h
      · next hacts =>
          cases h
          exact (call_keeps.trans (acts_keeps hacts)).trans untag_keeps

/-! ### Gets and puts -/

theorem get_ok {i : PaxosClientId} {bCreate : Bool} (h : r.get i bCreate = .ok t) :
    ∃ c, paxosAcceptGet i bCreate r.cAccept = .ok c ∧ t = { r with cAccept := c } := by
  unfold get at h
  split at h
  · cases h
  · next c hc =>
      cases h
      exact ⟨c, hc, rfl⟩

theorem put_ok (h : r.put s = .ok t) :
    ∃ c, paxosAcceptPut s r.cAccept = .ok c ∧ t = { r with cAccept := c } := by
  unfold put at h
  split at h
  · cases h
  · next c hc =>
      cases h
      exact ⟨c, hc, rfl⟩

/-- Who has a reference has an object. -/
theorem Counted.find (hr : r.Counted) (h : r.holders s ≠ 0) : ∃ a, r.accept s = some a := by
  obtain ⟨e, he⟩ := GElmCtrl.Held.find hr h
  refine ⟨e.val, ?_⟩
  unfold accept GElmCtrl.val
  rw [he]
  rfl

theorem Counted.held_find (hr : r.Counted) (h : r.stage.holds = some s) :
    ∃ a, r.accept s = some a := by
  apply hr.find
  unfold holders
  rw [if_pos h]
  omega

theorem get_held {i : PaxosClientId} {bCreate : Bool} {h : SessionId → ℕ}
    (hr : r.cAccept.Held h) (hget : r.get i bCreate = .ok t) :
    t.cAccept.Held (if (t.accept i.toSessionId).isSome then
      Function.update h i.toSessionId (h i.toSessionId + 1) else h) := by
  obtain ⟨c, hc, rfl⟩ := get_ok hget
  have hheld := GElmCtrl.get_held hr hc
  unfold accept GElmCtrl.val
  rw [Option.isSome_map]
  exact hheld

/-- A get leaves the objects that are in use as they are. -/
theorem get_accept {i : PaxosClientId} {bCreate : Bool} (hr : r.Counted) (hj : r.holders j ≠ 0)
    (hget : r.get i bCreate = .ok t) : t.accept j = r.accept j := by
  obtain ⟨c, hc, rfl⟩ := get_ok hget
  obtain ⟨-, hcase⟩ := GElmCtrl.get_ok hr.nodup hc
  obtain ⟨d, hd⟩ := GElmCtrl.Held.find hr hj
  unfold accept GElmCtrl.val
  rcases hcase with ⟨-, -, rfl⟩ | ⟨e, hf, hk, hrest⟩ | ⟨hf, -, hrest⟩ |
    ⟨e, v, hf, -, he, hcnt, -, -, -, hrest⟩
  · rfl
  · by_cases hji : j = i.toSessionId
    · rw [hji, hk, hf]
      rfl
    · rw [hrest j hji]
  · rw [hrest j]
    intro hji
    rw [hji, hf] at hd
    cases hd
  · rw [hrest j]
    · intro hji
      rw [hji, hf] at hd
      cases hd
    · -- the object that goes has no users
      intro hje
      have hfe := GElmCtrl.find_eq_some hr.nodup he hje.symm
      rw [← hr.cnt, GElmCtrl.cnt_of_find hfe] at hj
      exact hj hcnt

/-- The object of an open session stays. -/
theorem put_accept {a : PaxosAccept} (hr : r.Counted) (ha : r.accept j = some a)
    (ho : a.aOpened ≠ .binded) (hput : r.put s = .ok t) : t.accept j = some a := by
  obtain ⟨c, hc, rfl⟩ := put_ok hput
  obtain ⟨-, hrest, e, hf, -, hk⟩ := GElmCtrl.put_ok hr.nodup hc
  unfold accept GElmCtrl.val at ha ⊢
  by_cases hjs : j = s
  · subst hjs
    rw [hf] at ha
    cases ha
    rw [if_neg] at hk
    · rw [hk]
      rfl
    · simp [acceptFn, acceptUnset, ho]
  · rw [hrest j hjs]
    exact ha

/-- A get that may create finds or makes an object. -/
theorem get_create {i : PaxosClientId} (hr : r.Counted) (hget : r.get i true = .ok t) :
    ∃ a, t.accept i.toSessionId = some a := by
  obtain ⟨c, hc, rfl⟩ := get_ok hget
  obtain ⟨-, hcase⟩ := GElmCtrl.get_ok hr.nodup hc
  rcases hcase with ⟨hb, -⟩ | ⟨e, -, hk, -⟩ | ⟨-, hk, -⟩ | ⟨e, v, -, -, -, -, -, hk, -⟩
  · cases hb
  all_goals
    unfold accept GElmCtrl.val
    rw [hk]
    exact ⟨_, rfl⟩

theorem put_held {h : SessionId → ℕ} (hr : r.cAccept.Held h) (hput : r.put s = .ok t) :
    t.cAccept.Held (Function.update h s (h s - 1)) := by
  obtain ⟨c, hc, rfl⟩ := put_ok hput
  exact (GElmCtrl.put_held hr hc).1

/-! ### Every step keeps the counts right -/

variable {f : AcceptorIF σ} {log : List PaxosSessionHead} {m : PaxosSessionHead} {w : Worker}

theorem counted_of_holds (hs : r.stage.holds = some s) :
    r.Counted ↔ r.cAccept.Held (Function.update r.users s (r.users s + 1)) := by
  have hsame : r.holders = Function.update r.users s (r.users s + 1) := by
    funext j
    unfold holders
    rw [hs, Function.update_apply]
    simp only [Option.some.injEq]
    split_ifs with h₁ h₂ h₂
    · rw [h₁]
    · exact absurd h₁.symm h₂
    · exact absurd h₂.symm h₁
    · rfl
  unfold Counted
  rw [hsame]

theorem counted_of_free (hs : r.stage.holds = none) : r.Counted ↔ r.cAccept.Held r.users := by
  have hsame : r.holders = r.users := by
    funext j
    unfold holders
    rw [hs, if_neg (by simp)]
    rfl
  unfold Counted
  rw [hsame]

/-- What the executor does is no matter to the other threads' references. -/
structure Moves (r t : PaxosAcceptor σ) : Prop where
  conns : t.conns = r.conns
  workers : t.workers = r.workers
  counted : r.Counted → t.Counted

theorem Keeps.moves (hk : Keeps r t) {stage : ExecuteAt} (hs : stage.holds = r.stage.holds) :
    Moves r (t.goto stage) where
  conns := hk.conns
  workers := hk.workers
  counted := by
    intro hr
    apply GElmCtrl.Held.congr (hk.counted hr)
    intro j
    unfold PaxosAcceptor.holders
    rw [hk.stage, ← hs]
    rfl

theorem executeRecv_moves (hs : r.stage = .recv) (h : executeRecv log r = .ok t) : Moves r t := by
  unfold executeRecv at h
  split at h
  · cases h
    exact ⟨rfl, rfl, fun hr => hr⟩
  · next m _ =>
      split at h
      · cases h
      · next u hu =>
          cases h
          obtain ⟨c, hc, rfl⟩ := get_ok hu
          refine ⟨rfl, rfl, ?_⟩
          intro hr
          rw [counted_of_free (by rw [hs]; rfl)] at hr
          have hheld := get_held hr hu
          split_ifs with hsome habort
          · rw [if_pos hsome] at hheld
            exact (counted_of_holds rfl).mpr hheld
          · rw [if_pos hsome] at hheld
            exact (counted_of_holds rfl).mpr hheld
          · rw [if_neg hsome] at hheld
            exact (counted_of_free rfl).mpr hheld

/-- The executor gives its reference back. -/
theorem put_moves (hs : r.stage.holds = some s) (h : r.put s = .ok t) : Moves r (t.goto .recv) := by
  obtain ⟨c, hc, rfl⟩ := put_ok h
  refine ⟨rfl, rfl, ?_⟩
  intro hr
  rw [counted_of_holds hs] at hr
  apply (counted_of_free rfl).mpr
  apply (put_held hr h).congr
  intro j
  rw [Function.update_idem, Function.update_self, Nat.add_sub_cancel, Function.update_eq_self]
  rfl

theorem Keeps.then (hk : Keeps r t) (hm : Moves t u) : Moves r u where
  conns := hm.conns.trans hk.conns
  workers := hm.workers.trans hk.workers
  counted := fun hr => hm.counted (hk.counted hr)

theorem Moves.count (hm : Moves r t) : Moves r t.count := ⟨hm.conns, hm.workers, hm.counted⟩

theorem executeNext_moves (hk : Keeps r t) (hs : r.stage.holds = some m.hId.toSessionId)
    (h : executeNext m t = .ok u) : Moves r u := by
  unfold executeNext at h
  split at h
  · cases h
  · next v hv =>
      cases h
      exact hk.then (put_moves (by rw [hk.stage]; exact hs) hv)

theorem executeOpen_keeps (h : executeOpen f m r = .ok t) : Keeps r t := by
  unfold executeOpen at h
  simp only at h
  split_ifs at h
  cases h
  have hcall : Keeps r (r.call (f.fSessionOpen m r.app).1 m) := call_keeps
  exact ((hcall.trans update_keeps).trans tag_keeps).trans reply_keeps

theorem executeEvent_keeps (h : executeEvent f m r = .ok t) : Keeps r t := by
  unfold executeEvent at h
  simp only at h
  split at h
  · cases h
  · cases h
    split_ifs
    · exact update_keeps.trans send_keeps
    · exact update_keeps

theorem executeDefault_keeps (h : executeDefault f m r = .ok t) : Keeps r t := by
  unfold executeDefault at h
  split at h
  · cases h
  · split_ifs at h
    exact call_keeps.trans (acts_keeps h)

/-- A close gives the reference back. -/
theorem executeClose_ok (h : executeClose f m r = .ok t) :
    ∃ u, Keeps r u ∧ u.put m.hId.toSessionId = .ok t := by
  unfold executeClose at h
  simp only at h
  split at h
  · cases h
  · next u n hu =>
      have hk := sessionClose_keeps hu
      refine ⟨_, ?_, h⟩
      split_ifs
      · exact (hk.trans reply_keeps).trans update_keeps
      · exact hk.trans update_keeps

theorem executeSwitch_moves {b : Bool} (hs : r.stage = .switch m b)
    (h : executeSwitch f m r b = .ok t) : Moves r t := by
  unfold executeSwitch at h
  split at h
  · cases h
  · next u c hu =>
      cases h
      cases b with
      | false =>
          unfold executeCase at hu
          split at hu <;> simp only [Bool.false_eq_true, if_false] at hu <;> cases hu
          all_goals exact count_keeps.moves (by rw [hs]; rfl)
      | true =>
          have hholds : r.stage.holds = some m.hId.toSessionId := by rw [hs]; rfl
          have hkeeps (hk : Keeps r u) : Moves r (u.count.goto (.acceptedEnd m)) :=
            (hk.trans count_keeps).moves hholds.symm
          have hclose (h : (executeClose f m r).map (fun t => (t, false)) = .ok (u, c)) :
              Moves r (u.count.goto (if c then .acceptedEnd m else .recv)) := by
            obtain ⟨v, hv, hu⟩ := except_map_ok h
            cases hu
            obtain ⟨w, hk, hput⟩ := executeClose_ok hv
            exact (hk.then (put_moves (by rw [hk.stage]; exact hholds) hput)).count
          unfold executeCase at hu
          split at hu <;> simp only [if_true] at hu
          · obtain ⟨v, hv, hu⟩ := except_map_ok hu
            cases hu
            exact hkeeps (executeOpen_keeps hv)
          · exact hclose hu
          · exact hclose hu
          · obtain ⟨v, hv, hu⟩ := except_map_ok hu
            cases hu
            exact hkeeps (executeEvent_keeps hv)
          · cases hu
            exact hkeeps send_keeps
          · obtain ⟨v, hv, hu⟩ := except_map_ok hu
            cases hu
            exact hkeeps (executeDefault_keeps hv)

theorem threadExecute_moves (h : threadExecute f log r = .ok t) : Moves r t := by
  unfold threadExecute at h
  split at h
  · next hs => exact executeRecv_moves hs h
  · next m hs =>
      have hholds : r.stage.holds = some m.hId.toSessionId := by rw [hs]; rfl
      unfold executeIsAccepted at h
      split at h
      · cases h
      · next u n hu =>
          have hk := isAccepted_keeps hu
          split_ifs at h
          · cases h
            exact hk.moves hholds.symm
          · exact executeNext_moves (hk.trans count_keeps) hholds h
  · next m hs =>
      have hholds : r.stage.holds = some m.hId.toSessionId := by rw [hs]; rfl
      unfold executeSeqWait at h
      split at h
      · cases h
      · split_ifs at h
        · exact executeNext_moves count_keeps hholds h
        · cases h
          exact (Keeps.refl r).moves hholds.symm
  · next m hs =>
      unfold executeStart at h
      split at h
      · cases h
      · split_ifs at h
        cases h
        exact update_keeps.moves (by rw [hs]; rfl)
  · next m b hs => exact executeSwitch_moves hs h
  · next m hs =>
      unfold executeEnd at h
      split at h
      · cases h
      · split at h
        · cases h
        · exact executeNext_moves update_keeps (by rw [hs]; rfl) h

/-! ### The workers -/

theorem users_erase (hw : w ∈ r.workers) (j : SessionId) :
    ((r.workers.erase w).map Worker.session).count j + (if w.session = j then 1 else 0) =
      (r.workers.map Worker.session).count j := by
  have hperm := (List.perm_cons_erase hw).map Worker.session
  rw [hperm.count_eq j, List.map_cons, List.count_cons]
  congr 1
  split_ifs with h₁ h₂ h₂
  · rfl
  · exact absurd (by simpa using h₁) h₂
  · exact absurd h₁ (by simpa using h₂)
  · rfl

theorem turn_counted {p : WorkerAt} (hr : r.Counted) (hw : w ∈ r.workers) :
    (r.turn w p).Counted := by
  apply GElmCtrl.Held.congr hr
  intro j
  have herase := users_erase hw j
  have hturn : ((r.turn w p).workers.map Worker.session).count j =
      (r.workers.map Worker.session).count j := by
    unfold turn
    rw [List.map_append, List.count_append, List.map_singleton, List.count_singleton, ← herase]
    congr 1
    rcases eq_or_ne w.session j with rfl | hj
    · rw [if_pos rfl]
      exact if_pos (beq_self_eq_true _)
    · rw [if_neg hj]
      exact if_neg fun h => hj (beq_iff_eq.mp h)
  unfold holders users
  rw [hturn]
  rfl

theorem Keeps.turn {p : WorkerAt} (hk : Keeps r t) (hr : r.Counted) (hw : w ∈ r.workers) :
    (t.turn w p).Counted := turn_counted (hk.counted hr) (hk.workers ▸ hw)

theorem workerRequest_counted {a : PaxosAccept} (hr : r.Counted) (hw : w ∈ r.workers)
    (h : workerRequest f r w a = .ok t) : t.Counted := by
  unfold workerRequest at h
  split at h
  · split_ifs at h
    · cases h
      exact turn_counted hr hw
    · cases h
      exact update_keeps.turn hr hw
  · split_ifs at h
    · cases h
      exact update_keeps.turn hr hw
    · cases h
      exact turn_counted hr hw
  · split_ifs at h
    · cases h
      exact turn_counted hr hw
    · cases h
      exact update_keeps.turn hr hw
  all_goals
    cases h
    exact turn_counted hr hw

theorem workerReset_counted {o saved : PaxosAcceptOpen} {b : Bool} (hr : r.Counted)
    (hw : w ∈ r.workers) : (workerReset r w o saved b).Counted := by
  unfold workerReset
  simp only
  split_ifs
  · exact update_keeps.turn hr hw
  · exact turn_counted hr hw

theorem threadWorker_counted {b : Bool} (hr : r.Counted) (hw : w ∈ r.workers)
    (h : threadWorker f r w b = .ok t) : t.Counted := by
  unfold threadWorker at h
  split at h
  · unfold workerIsAccepted at h
    split at h
    · cases h
    · next hu =>
        cases h
        exact (isAccepted_keeps hu).turn hr hw
  · split at h
    · cases h
    · exact workerRequest_counted hr hw h
  · cases h
    exact workerReset_counted hr hw
  · cases h
    exact workerReset_counted hr hw
  · cases h
    exact reply_keeps.turn hr hw
  · split at h
    · cases h
    · next u hu =>
        cases h
        have hheld := put_held hr hu
        obtain ⟨c, hc, rfl⟩ := put_ok hu
        apply hheld.congr
        intro j
        have herase := users_erase hw j
        rw [Function.update_apply]
        unfold holders users
        rcases eq_or_ne w.session j with rfl | hj
        · rw [if_pos rfl] at herase ⊢
          simp only
          omega
        · rw [if_neg hj] at herase
          rw [if_neg hj.symm]
          simp only
          omega

theorem threadWorker_stage {b : Bool} (h : threadWorker f r w b = .ok t) : t.stage = r.stage := by
  unfold threadWorker at h
  split at h
  · unfold workerIsAccepted at h
    split at h
    · cases h
    · next hu =>
        cases h
        exact (isAccepted_keeps hu).stage
  · split at h
    · cases h
    · unfold workerRequest at h
      split at h
      iterate 3
        · split_ifs at h <;> cases h <;> rfl
      all_goals
        cases h
        rfl
  · cases h
    unfold workerReset
    simp only
    split_ifs <;> rfl
  · cases h
    unfold workerReset
    simp only
    split_ifs <;> rfl
  · cases h
    exact (reply_keeps (r := r)).stage
  · split at h
    · cases h
    · next u hu =>
        cases h
        obtain ⟨c, hc, rfl⟩ := put_ok hu
        rfl

theorem acceptorAct_counted {x : AcceptorAct} (hr : r.Counted) (h : acceptorAct f log r x = .ok t) :
    t.Counted := by
  cases x with
  | execute => exact (threadExecute_moves h).counted hr
  | bind i =>
      unfold acceptorAct at h
      simp only at h
      split at h
      · cases h
      · next u hu =>
          cases h
          obtain ⟨a, ha⟩ := get_create hr hu
          have hheld := get_held hr hu
          rw [if_pos (by rw [ha]; rfl)] at hheld
          obtain ⟨c, hc, rfl⟩ := get_ok hu
          apply hheld.congr
          intro j
          rw [Function.update_apply]
          unfold holders users
          rw [List.count_cons]
          simp only [beq_iff_eq]
          split_ifs <;> grind
  | disconnect s =>
      unfold acceptorAct at h
      simp only at h
      split_ifs at h with hs
      · split at h
        · cases h
        · next u hu =>
            cases h
            have hheld := put_held hr hu
            obtain ⟨c, hc, rfl⟩ := put_ok hu
            apply hheld.congr
            intro j
            rw [Function.update_apply]
            unfold holders users
            simp only
            have hpos : 0 < r.conns.count s := List.count_pos_iff.mpr hs
            split_ifs with hj <;> grind
      · cases h
        exact hr
  | arrive m =>
      unfold acceptorAct at h
      simp only at h
      split at h
      · cases h
      · next u hu =>
          cases h
          obtain ⟨a, ha⟩ := get_create hr hu
          have hheld := get_held hr hu
          rw [if_pos (by rw [ha]; rfl)] at hheld
          obtain ⟨c, hc, rfl⟩ := get_ok hu
          apply hheld.congr
          intro j
          rw [Function.update_apply]
          unfold holders users
          simp only [List.map_append, List.count_append, List.map_singleton, List.count_singleton]
          split_ifs <;> grind [Worker.session]
  | work w b =>
      unfold acceptorAct at h
      simp only at h
      split_ifs at h with hw
      · exact threadWorker_counted hr hw h
      · cases h
        exact hr

theorem init_counted (x : σ) : ({ app := x } : PaxosAcceptor σ).Counted :=
  ⟨List.nodup_nil, fun _ => rfl⟩

end PaxosAcceptor

end PaxosSolutions
