import PaxosSolutions.Session.Users

/-!
# The executor at an `OPEN` of an open session

`ThreadExecute` waits in the duplicate test for `a_Opened` to become 0 when an
`OPEN` meets an open session that has started another command. Of the other
threads only a worker whose own `OPEN` could not be proposed clears it.
-/
namespace PaxosSolutions
open Lib NWGadget
variable {σ : Type} (f : AcceptorIF σ) (log : List PaxosSessionHead)

/-- `ThreadExecute` is in the loop of the duplicate test and stays there
whatever the other threads do. -/
def Spins (r : PaxosAcceptor σ) : Prop :=
  ∀ xs t, AcceptorAct.execute ∉ xs → run (acceptorAct f log) r xs = .ok t →
    acceptorAct f log t .execute = .error (.accept .wait)

namespace PaxosAcceptor

/-- A worker still proposes an `OPEN` of the session, and the object is
`OPENING` or will be when a `CLOSE` could not be proposed. -/
def MayFail (r : PaxosAcceptor σ) (s : SessionId) (a : PaxosAccept) : Prop :=
  (∃ w ∈ r.workers, w.session = s ∧ w.stage = .opening) ∧
    (a.aOpened = .opening ∨ ∃ w ∈ r.workers, w.session = s ∧ w.stage = .closing .opening)

/-- An `OPEN` comes before any other command of its session is started, or
when the session is not open, or its opening may still fail. -/
def OpensFirst (r : PaxosAcceptor σ) (m : PaxosSessionHead) : Prop :=
  m.hCmd = .sessionOpen → ∀ a, r.accept m.hId.toSessionId = some a →
    a.aOpened = .binded ∨ a.aAccepted.aCmd = none ∨ a.aAccepted.aCmd = some .sessionOpen ∨
      r.MayFail m.hId.toSessionId a

/-- A saved `Opened` is that of an open session. -/
def Saved (r : PaxosAcceptor σ) : Prop :=
  ∀ w ∈ r.workers, ∀ o, w.stage = .closing o → o ≠ .binded

/-- The session of `s` is open, it has started a command other than `OPEN`, and
no worker can undo its opening. -/
structure Locked (r : PaxosAcceptor σ) (s : SessionId) (a : PaxosAccept) : Prop where
  accept : r.accept s = some a
  opened : a.aOpened ≠ .binded
  cmd : a.aAccepted.aCmd ≠ none ∧ a.aAccepted.aCmd ≠ some .sessionOpen
  fails : ¬ r.MayFail s a

variable {f : AcceptorIF σ} {log : List PaxosSessionHead} {r t : PaxosAcceptor σ}
  {s : SessionId} {a b : PaxosAccept} {w : Worker}

/-! ### The other threads -/

theorem mem_turn {p : WorkerAt} {v : Worker} (hv : v ∈ (r.turn w p).workers) :
    v ∈ r.workers ∨ v = { w with stage := p } := by
  unfold turn at hv
  rcases List.mem_append.mp hv with hv | hv
  · exact .inl (List.mem_of_mem_erase hv)
  · exact .inr (List.mem_singleton.mp hv)

/-- A worker that goes on to no opening adds nothing to undo. -/
theorem Locked.turn {p : WorkerAt} (hl : r.Locked s a) (ho : p ≠ .opening)
    (hc : p ≠ .closing .opening) : (r.turn w p).Locked s a := by
  refine ⟨hl.accept, hl.opened, hl.cmd, ?_⟩
  intro hm
  apply hl.fails
  obtain ⟨⟨v, hv, hvs, hvo⟩, hm⟩ := hm
  refine ⟨⟨v, ?_, hvs, hvo⟩, ?_⟩
  · rcases mem_turn hv with hv | rfl
    · exact hv
    · exact absurd hvo ho
  · rcases hm with hm | ⟨v, hv, hvs, hvo⟩
    · exact .inl hm
    · right
      refine ⟨v, ?_, hvs, hvo⟩
      rcases mem_turn hv with hv | rfl
      · exact hv
      · exact absurd hvo hc

/-- A change of the accept object that leaves `a_Opened` and sets no `OPEN`. -/
theorem Locked.update {j : SessionId} {g : PaxosAccept → PaxosAccept} (hl : r.Locked s a)
    (ho : j = s → (g a).aOpened = a.aOpened)
    (hc : j = s → (g a).aAccepted.aCmd ≠ none ∧ (g a).aAccepted.aCmd ≠ some .sessionOpen) :
    ∃ b, (r.update j g).Locked s b := by
  by_cases hj : j = s
  · refine ⟨g a, ?_, ?_, hc hj, ?_⟩
    · rw [accept_update, if_pos hj.symm, hl.accept]
      rfl
    · rw [ho hj]
      exact hl.opened
    · unfold MayFail
      rw [ho hj]
      exact hl.fails
  · refine ⟨a, ?_, hl.opened, hl.cmd, hl.fails⟩
    rw [accept_update, if_neg (Ne.symm hj)]
    exact hl.accept

theorem accept_send {j : SessionId} {read : Bool} : (r.send j read).accept s = r.accept s := by
  unfold send
  split <;> rfl

theorem Locked.send {j : SessionId} {read : Bool} (hl : r.Locked s a) :
    (r.send j read).Locked s a := by
  have hw := (send_keeps : Keeps r (r.send j read)).workers
  refine ⟨accept_send.trans hl.accept, hl.opened, hl.cmd, ?_⟩
  unfold MayFail
  rw [hw]
  exact hl.fails

/-- The duplicate test lets a request of a locked session pass as it is. -/
theorem isAccepted_locked {m : PaxosSessionHead} {n : ℤ}
    (hc : a.aOpened ≠ .binded) (h : a.isAccepted m = .ok (b, n)) : b = a := by
  unfold PaxosAccept.isAccepted at h
  split_ifs at h
  all_goals
    obtain ⟨k, -, hk⟩ := except_map_ok h
    cases hk
    rfl

theorem Locked.isAccepted {m : PaxosSessionHead} {n : ℤ} (hl : r.Locked s a)
    (h : r.isAccepted m = .ok (t, n)) : ∃ b, t.Locked s b := by
  unfold PaxosAcceptor.isAccepted at h
  split at h
  · cases h
  · next c hc =>
      split at h
      · cases h
      · next d k hd =>
          cases h
          obtain ⟨b, hb⟩ := hl.update (j := m.hId.toSessionId) (g := fun _ => d) (by
            intro hs
            rw [hs, hl.accept] at hc
            cases hc
            rw [isAccepted_locked hl.opened hd]) (by
            intro hs
            rw [hs, hl.accept] at hc
            cases hc
            rw [isAccepted_locked hl.opened hd]
            exact hl.cmd)
          refine ⟨b, ?_⟩
          split_ifs
          · exact hb.send
          · exact hb

/-- A worker of another session changes its own object. -/
theorem Locked.other {p : WorkerAt} {g : PaxosAccept → PaxosAccept} (hl : r.Locked s a)
    (hs : w.session ≠ s) : ((r.update w.session g).turn w p).Locked s a := by
  refine ⟨?_, hl.opened, hl.cmd, ?_⟩
  · change (r.update w.session g).accept s = some a
    rw [accept_update, if_neg hs.symm]
    exact hl.accept
  · intro hm
    have hmem (v : Worker) (hv : v ∈ ((r.update w.session g).turn w p).workers)
        (hvs : v.session = s) : v ∈ r.workers := by
      rcases mem_turn hv with hv | rfl
      · exact hv
      · exact absurd hvs hs
    obtain ⟨⟨v, hv, hvs, hvo⟩, hm⟩ := hm
    apply hl.fails
    refine ⟨⟨v, hmem v hv hvs, hvs, hvo⟩, ?_⟩
    rcases hm with hm | ⟨v, hv, hvs, hvo⟩
    · exact .inl hm
    · exact .inr ⟨v, hmem v hv hvs, hvs, hvo⟩

/-- A `CLOSE` under way keeps the object open and its opening safe. -/
theorem Locked.closing (hl : r.Locked s a) (hs : w.session = s) :
    ((r.update w.session fun a => { a with aOpened := .closing }).turn w (.closing a.aOpened)).Locked
      s { a with aOpened := .closing } := by
  refine ⟨?_, by simp, hl.cmd, ?_⟩
  · change (r.update w.session fun a => { a with aOpened := .closing }).accept s = _
    rw [accept_update, if_pos hs.symm, hl.accept]
    rfl
  · intro hm
    obtain ⟨⟨v, hv, hvs, hvo⟩, hm⟩ := hm
    apply hl.fails
    constructor
    · refine ⟨v, ?_, hvs, hvo⟩
      rcases mem_turn hv with hv | rfl
      · exact hv
      · cases hvo
    · rcases hm with hm | ⟨v, hv, hvs, hvo⟩
      · cases hm
      · rcases mem_turn hv with hv | rfl
        · exact .inr ⟨v, hv, hvs, hvo⟩
        · exact .inl (WorkerAt.closing.inj hvo)

theorem Locked.request {c : PaxosAccept} (hl : r.Locked s a) (hc : r.accept w.session = some c)
    (h : workerRequest f r w c = .ok t) : ∃ b, t.Locked s b := by
  -- the worker's object is `a` if its session is `s`
  have hca (hs : w.session = s) : c = a := by
    rw [hs, hl.accept] at hc
    exact (Option.some.inj hc).symm
  unfold workerRequest at h
  split at h
  · split_ifs at h with ho
    · cases h
      exact ⟨a, hl.turn (by simp) (by simp)⟩
    · cases h
      rcases eq_or_ne w.session s with hs | hs
      · rw [hca hs]
        exact ⟨_, hl.closing hs⟩
      · exact ⟨a, hl.other hs⟩
  · split_ifs at h with hclosing hb
    · cases h
      have hs : w.session ≠ s := by
        intro hs
        rw [hca hs] at hb
        exact hl.opened hb
      exact ⟨a, hl.other hs⟩
    · cases h
      exact ⟨a, hl.turn (by simp) (by simp)⟩
  · split_ifs at h
    · cases h
      exact ⟨a, hl.turn (by simp) (by simp)⟩
    · cases h
      obtain ⟨b, hb⟩ := hl.update (j := w.session) (g := (·.acceptedSeq w.pH)) (fun _ => rfl)
        (fun _ => by simp_all [PaxosAccept.acceptedSeq])
      exact ⟨b, hb.turn (by simp) (by simp)⟩
  all_goals
    cases h
    exact ⟨a, hl.turn (by simp) (by simp)⟩

/-- An `OPEN` that could not be proposed is not that of a locked session. -/
theorem Locked.resetOpening {x : Bool} (hl : r.Locked s a) (hw : w ∈ r.workers)
    (hp : w.stage = .opening) : ∃ b, (workerReset r w .opening .binded x).Locked s b := by
  unfold workerReset
  simp only
  split_ifs
  · rcases eq_or_ne w.session s with hs | hs
    · have ho : a.aOpened ≠ .opening := by
        intro ho
        exact hl.fails ⟨⟨w, hw, hs, hp⟩, .inl ho⟩
      obtain ⟨b, hb⟩ := hl.update (j := w.session)
        (g := fun a => if a.aOpened = .opening then { a with aOpened := .binded } else a)
        (fun _ => by simp [ho]) (fun _ => by simpa [ho] using hl.cmd)
      exact ⟨b, hb.turn (by simp) (by simp)⟩
    · exact ⟨a, hl.other hs⟩
  · exact ⟨a, hl.turn (by simp) (by simp)⟩

/-- A `CLOSE` that could not be proposed leaves the session open. -/
theorem Locked.resetClosing {o : PaxosAcceptOpen} {x : Bool} (hl : r.Locked s a)
    (hw : w ∈ r.workers) (hp : w.stage = .closing o) (ho : o ≠ .binded) :
    ∃ b, (workerReset r w .closing o x).Locked s b := by
  unfold workerReset
  simp only
  split_ifs
  · rcases eq_or_ne w.session s with hs | hs
    · by_cases hc : a.aOpened = .closing
      · refine ⟨{ a with aOpened := o }, ?_, ho, hl.cmd, ?_⟩
        · change (r.update w.session _).accept s = _
          rw [accept_update, if_pos hs.symm, hl.accept]
          simp [hc]
        · intro hm
          obtain ⟨⟨v, hv, hvs, hvo⟩, hm⟩ := hm
          apply hl.fails
          constructor
          · refine ⟨v, ?_, hvs, hvo⟩
            rcases mem_turn hv with hv | rfl
            · exact hv
            · cases hvo
          · right
            rcases hm with rfl | ⟨v, hv, hvs, hvo⟩
            · exact ⟨w, hw, hs, hp⟩
            · refine ⟨v, ?_, hvs, hvo⟩
              rcases mem_turn hv with hv | rfl
              · exact hv
              · cases hvo
      · obtain ⟨b, hb⟩ := hl.update (j := w.session)
          (g := fun a => if a.aOpened = .closing then { a with aOpened := o } else a)
          (fun _ => by simp [hc]) (fun _ => by simpa [hc] using hl.cmd)
        exact ⟨b, hb.turn (by simp) (by simp)⟩
    · exact ⟨a, hl.other hs⟩
  · exact ⟨a, hl.turn (by simp) (by simp)⟩

theorem Locked.worker {x : Bool} (hr : r.Counted) (hsaved : r.Saved) (hl : r.Locked s a)
    (hw : w ∈ r.workers) (h : threadWorker f r w x = .ok t) : ∃ b, t.Locked s b := by
  unfold threadWorker at h
  split at h
  · unfold workerIsAccepted at h
    split at h
    · cases h
    · next u n hu =>
        cases h
        obtain ⟨b, hb⟩ := hl.isAccepted hu
        refine ⟨b, hb.turn ?_ ?_⟩ <;> split_ifs <;> simp
  · split at h
    · cases h
    · next c hc => exact hl.request hc h
  · next hp =>
      cases h
      exact hl.resetOpening hw hp
  · next o hp =>
      cases h
      exact hl.resetClosing hw hp (hsaved w hw o hp)
  · cases h
    unfold reply
    obtain ⟨b, hb⟩ := hl.update (j := w.session)
      (g := fun a => a.reply false (f.fRead w.pH r.app)) (fun _ => rfl) (fun _ => hl.cmd)
    exact ⟨b, hb.send.turn (by simp) (by simp)⟩
  · split at h
    · cases h
    · next u hu =>
        cases h
        refine ⟨a, (put_accept hr hl.accept hl.opened hu : u.accept s = some a), hl.opened, hl.cmd, ?_⟩
        obtain ⟨c, hc, rfl⟩ := put_ok hu
        intro hm
        obtain ⟨⟨v, hv, hvs, hvo⟩, hm⟩ := hm
        apply hl.fails
        refine ⟨⟨v, List.mem_of_mem_erase hv, hvs, hvo⟩, ?_⟩
        rcases hm with hm | ⟨v, hv, hvs, hvo⟩
        · exact .inl hm
        · exact .inr ⟨v, List.mem_of_mem_erase hv, hvs, hvo⟩

/-- No other thread unlocks a session that the executor holds. -/
theorem Locked.step {x : AcceptorAct} (hr : r.Counted) (hsaved : r.Saved) (hl : r.Locked s a)
    (hs : r.stage.holds = some s) (hx : x ≠ .execute) (h : acceptorAct f log r x = .ok t) :
    (∃ b, t.Locked s b) ∧ t.stage = r.stage := by
  have hheld : r.holders s ≠ 0 := by
    unfold holders
    rw [if_pos hs]
    omega
  cases x with
  | execute => exact absurd rfl hx
  | bind i =>
      unfold acceptorAct at h
      simp only at h
      split at h
      · cases h
      · next u hu =>
          cases h
          refine ⟨⟨a, (get_accept hr hheld hu).trans hl.accept, hl.opened, hl.cmd, ?_⟩, ?_⟩
          all_goals obtain ⟨c, hc, rfl⟩ := get_ok hu
          · exact hl.fails
          · rfl
  | disconnect j =>
      unfold acceptorAct at h
      simp only at h
      split_ifs at h
      · split at h
        · cases h
        · next u hu =>
            cases h
            refine ⟨⟨a, (put_accept hr hl.accept hl.opened hu : u.accept s = some a), hl.opened, hl.cmd, ?_⟩, ?_⟩
            all_goals obtain ⟨c, hc, rfl⟩ := put_ok hu
            · exact hl.fails
            · rfl
      · cases h
        exact ⟨⟨a, hl⟩, rfl⟩
  | arrive m =>
      unfold acceptorAct at h
      simp only at h
      split at h
      · cases h
      · next u hu =>
          cases h
          refine ⟨⟨a, (get_accept hr hheld hu).trans hl.accept, hl.opened, hl.cmd, ?_⟩, ?_⟩
          all_goals obtain ⟨c, hc, rfl⟩ := get_ok hu
          · intro hm
            obtain ⟨⟨v, hv, hvs, hvo⟩, hm⟩ := hm
            have hmem (v : Worker) (hv : v ∈ r.workers ++ [{ pH := m }])
                (hvo : v.stage ≠ .got) : v ∈ r.workers := by
              rcases List.mem_append.mp hv with hv | hv
              · exact hv
              · rw [List.mem_singleton.mp hv] at hvo
                exact absurd rfl hvo
            apply hl.fails
            refine ⟨⟨v, hmem v hv (by simp [hvo]), hvs, hvo⟩, ?_⟩
            rcases hm with hm | ⟨v, hv, hvs, hvo⟩
            · exact .inl hm
            · exact .inr ⟨v, hmem v hv (by simp [hvo]), hvs, hvo⟩
          · rfl
  | work w x =>
      unfold acceptorAct at h
      simp only at h
      split_ifs at h with hw
      · exact ⟨hl.worker hr hsaved hw h, threadWorker_stage h⟩
      · cases h
        exact ⟨⟨a, hl⟩, rfl⟩

/-! ### What holds in every state -/

theorem Saved.turn {p : WorkerAt} (hr : r.Saved) (ht : t.workers = r.workers)
    (hp : ∀ o, p = .closing o → o ≠ .binded) : (t.turn w p).Saved := by
  intro v hv o ho
  rcases mem_turn hv with hv | rfl
  · rw [ht] at hv
    exact hr v hv o ho
  · exact hp o ho

theorem threadWorker_saved {x : Bool} (hr : r.Saved) (h : threadWorker f r w x = .ok t) :
    t.Saved := by
  unfold threadWorker at h
  split at h
  · unfold workerIsAccepted at h
    split at h
    · cases h
    · next u n hu =>
        cases h
        apply hr.turn (isAccepted_keeps hu).workers
        split_ifs <;> simp
  · split at h
    · cases h
    · next a ha =>
        unfold workerRequest at h
        split at h
        · split_ifs at h with ho
          · cases h
            exact hr.turn rfl (by simp)
          · cases h
            apply hr.turn rfl
            intro o hc
            rw [← WorkerAt.closing.inj hc]
            exact fun hb => ho (.inl hb)
        iterate 2
          · split_ifs at h <;> cases h <;> exact hr.turn rfl (by simp)
        all_goals
          cases h
          exact hr.turn rfl (by simp)
  iterate 2
    · cases h
      unfold workerReset
      simp only
      split_ifs <;> exact hr.turn rfl (by simp)
  · cases h
    exact hr.turn reply_keeps.workers (by simp)
  · split at h
    · cases h
    · next u hu =>
        cases h
        obtain ⟨c, hc, rfl⟩ := put_ok hu
        intro v hv
        exact hr v (List.mem_of_mem_erase hv)

theorem acceptorAct_saved {x : AcceptorAct} (hr : r.Saved) (h : acceptorAct f log r x = .ok t) :
    t.Saved := by
  cases x with
  | execute =>
      have hw := (threadExecute_moves h).workers
      unfold Saved
      rw [hw]
      exact hr
  | bind i =>
      unfold acceptorAct at h
      simp only at h
      split at h
      · cases h
      · next u hu =>
          cases h
          obtain ⟨c, hc, rfl⟩ := get_ok hu
          exact hr
  | disconnect j =>
      unfold acceptorAct at h
      simp only at h
      split_ifs at h
      · split at h
        · cases h
        · next u hu =>
            cases h
            obtain ⟨c, hc, rfl⟩ := put_ok hu
            exact hr
      · cases h
        exact hr
  | arrive m =>
      unfold acceptorAct at h
      simp only at h
      split at h
      · cases h
      · next u hu =>
          cases h
          obtain ⟨c, hc, rfl⟩ := get_ok hu
          intro v hv o ho
          rcases List.mem_append.mp hv with hv | hv
          · exact hr v hv o ho
          · rw [List.mem_singleton.mp hv] at ho
            cases ho
  | work w x =>
      unfold acceptorAct at h
      simp only at h
      split_ifs at h with hw
      · exact threadWorker_saved hr h
      · cases h
        exact hr

/-- What every run reaches. -/
structure Sound (r : PaxosAcceptor σ) : Prop where
  counted : r.Counted
  saved : r.Saved

theorem run_sound {x₀ : σ} {xs : List AcceptorAct}
    (h : run (acceptorAct f log) { app := x₀ } xs = .ok r) : r.Sound := by
  apply run_invariant (I := Sound) (C := fun _ _ => True) _ _ _ h
  · intro r x t hr _ ht
    exact ⟨acceptorAct_counted hr.counted ht, acceptorAct_saved hr.saved ht⟩
  · exact ⟨init_counted x₀, by intro w hw; cases hw⟩
  · exact Along.trivial

/-! ### The wait -/

variable {m : PaxosSessionHead}

theorem Locked.waits (hl : r.Locked m.hId.toSessionId a) (hs : r.stage = .isAccepted m)
    (hm : m.hCmd = .sessionOpen) : threadExecute f log r = .error (.accept .wait) := by
  have hreuse : a.reuses m = true := by
    unfold PaxosAccept.reuses
    simpa using ⟨hm, hl.cmd⟩
  unfold threadExecute
  rw [hs]
  simp only
  unfold executeIsAccepted PaxosAcceptor.isAccepted
  rw [hl.accept]
  simp only
  unfold PaxosAccept.isAccepted
  rw [if_pos hreuse, if_pos hl.opened]

theorem Locked.spins (hr : r.Sound) (hl : r.Locked m.hId.toSessionId a)
    (hs : r.stage = .isAccepted m) (hm : m.hCmd = .sessionOpen) : Spins f log r := by
  intro xs
  induction xs generalizing r a with
  | nil =>
      intro t _ h
      cases h
      exact hl.waits hs hm
  | cons x xs ih =>
      intro t hx h
      obtain ⟨u, hu, h⟩ := run_cons_ok h
      have hne : x ≠ .execute := by
        intro h
        exact hx (h ▸ List.mem_cons_self)
      obtain ⟨⟨b, hb⟩, hstage⟩ := hl.step hr.counted hr.saved (by rw [hs]; rfl) hne hu
      exact ih ⟨acceptorAct_counted hr.counted hu, acceptorAct_saved hr.saved hu⟩ hb
        (hstage.trans hs) t (fun h => hx (List.mem_cons_of_mem _ h)) h

/-- Without an open session that has started another command nothing waits. -/
theorem not_waits (ha : r.accept m.hId.toSessionId = some a) (hs : r.stage = .isAccepted m)
    (h : a.aOpened = .binded ∨ a.reuses m = false) :
    threadExecute f log r ≠ .error (.accept .wait) := by
  intro hw
  unfold threadExecute at hw
  rw [hs] at hw
  simp only at hw
  unfold executeIsAccepted at hw
  split at hw
  · next e he =>
      cases hw
      unfold PaxosAcceptor.isAccepted at he
      rw [ha] at he
      simp only at he
      split at he
      · next e he' =>
          cases he
          unfold PaxosAccept.isAccepted at he'
          have hreplied (b : PaxosAccept) : PaxosAccept.isReplied m b ≠ .error .wait := by
            unfold PaxosAccept.isReplied
            split_ifs <;> simp
          split_ifs at he' with hr ho
          · rcases h with h | h
            · exact ho h
            · rw [h] at hr
              cases hr
          · exact hreplied _ (except_map_error he')
          · exact hreplied _ (except_map_error he')
      · cases he
  · split_ifs at hw
    unfold executeNext at hw
    split at hw
    · next e he =>
        cases hw
        unfold put at he
        split at he <;> cases he
    · cases hw

/-! ### What the other threads can still do -/

theorem spins_run {xs : List AcceptorAct} (hs : Spins f log r) (hx : AcceptorAct.execute ∉ xs)
    (h : run (acceptorAct f log) r xs = .ok t) : Spins f log t := by
  intro ys u hy hu
  apply hs (xs ++ ys) u
  · simp [hx, hy]
  · exact run_append h hu

/-- An `OPEN` under way can fail. -/
theorem not_spins_of_opening (hs : r.stage = .isAccepted m)
    (ha : r.accept m.hId.toSessionId = some a) (ho : a.aOpened = .opening) (hw : w ∈ r.workers)
    (hws : w.session = m.hId.toSessionId) (hp : w.stage = .opening) : ¬ Spins f log r := by
  intro hspin
  have hstep : acceptorAct f log r (.work w true) = .ok (workerReset r w .opening .binded true) := by
    unfold acceptorAct threadWorker
    simp only [hw, if_true, hp]
  have ht : (workerReset r w .opening .binded true).accept m.hId.toSessionId =
      some { a with aOpened := .binded } := by
    unfold workerReset
    simp only [if_true]
    change (r.update w.session _).accept _ = _
    rw [accept_update, if_pos hws.symm, ha, Option.map_some, if_pos ho]
  have hgoes : threadExecute f log (workerReset r w .opening .binded true) ≠
      .error (.accept .wait) := not_waits ht hs (.inl rfl)
  exact hgoes (hspin [.work w true] _ (by simp) (by simp [run, hstep, Except.bind]))

/-- So can a `CLOSE` under way. -/
theorem not_spins_of_closing {v : Worker} (hs : r.stage = .isAccepted m)
    (ha : r.accept m.hId.toSessionId = some a) (ho : a.aOpened = .closing) (hw : w ∈ r.workers)
    (hws : w.session = m.hId.toSessionId) (hp : w.stage = .opening) (hv : v ∈ r.workers)
    (hvs : v.session = m.hId.toSessionId) (hvp : v.stage = .closing .opening) :
    ¬ Spins f log r := by
  intro hspin
  have hstep : acceptorAct f log r (.work v true) = .ok (workerReset r v .closing .opening true) := by
    unfold acceptorAct threadWorker
    simp only [hv, if_true, hvp]
  have ht : (workerReset r v .closing .opening true).accept m.hId.toSessionId =
      some { a with aOpened := .opening } := by
    unfold workerReset
    simp only [if_true]
    change (r.update v.session _).accept _ = _
    rw [accept_update, if_pos hvs.symm, ha, Option.map_some, if_pos ho]
  have hne : w ≠ v := by
    intro h
    rw [h, hvp] at hp
    cases hp
  have hmem : w ∈ (workerReset r v .closing .opening true).workers := by
    apply List.mem_append_left
    exact (List.mem_erase_of_ne hne).mpr hw
  apply not_spins_of_opening (r := workerReset r v .closing .opening true) hs ht rfl hmem hws hp
  have hrun : run (acceptorAct f log) r [.work v true] =
      .ok (workerReset r v .closing .opening true) := by simp [run, hstep, Except.bind]
  exact spins_run hspin (by simp) hrun

/-- A request of a number that no command had yet is no duplicate. -/
theorem isReplied_fresh (a : PaxosAccept) : ∃ x : UInt32,
    ∀ h : PaxosSessionHead, h.hId.iSeq = x → PaxosAccept.isReplied h a = .ok 0 := by
  have hone (y : UInt32) : cmp32 (y + 1) y = 1 := by
    unfold cmp32
    rw [show y + 1 - y = 1 by grind]
    rfl
  have htwo (y : UInt32) : cmp32 (y + 2) y = 2 := by
    unfold cmp32
    rw [show y + 2 - y = 2 by grind]
    rfl
  by_cases hs : a.aAccepted.aStart = a.aAccepted.aReply + 1
  · refine ⟨a.aAccepted.aReply + 2, ?_⟩
    intro h hx
    unfold PaxosAccept.isReplied
    rw [hx, htwo, if_neg (by decide), if_neg (by grind), if_neg]
    rw [hs]
    grind
  · refine ⟨a.aAccepted.aReply + 1, ?_⟩
    intro h hx
    unfold PaxosAccept.isReplied
    rw [hx, hone, if_neg (by decide), if_neg (by grind), if_neg]
    exact fun h => hs h.1

/-- A `CLOSE` that arrives makes the object `CLOSING`. -/
theorem close_arrives (f : AcceptorIF σ) (log : List PaxosSessionHead) (hr : r.Counted) (hs : r.stage = .isAccepted m)
    (ha : r.accept m.hId.toSessionId = some a) (ho : a.aOpened = .opened) :
    ∃ xs t, AcceptorAct.execute ∉ xs ∧ run (acceptorAct f log) r xs = .ok t ∧
      t.stage = .isAccepted m ∧
      t.accept m.hId.toSessionId = some { a with aOpened := .closing } ∧
      ∀ w ∈ r.workers, w.stage ≠ .got → w.stage ≠ .accepted → w ∈ t.workers := by
  obtain ⟨x, hx⟩ := isReplied_fresh a
  let c : PaxosSessionHead :=
    { hCmd := .sessionClose, hId := { toSessionId := m.hId.toSessionId, iSeq := x } }
  have hheld : r.holders m.hId.toSessionId ≠ 0 := by
    unfold holders
    rw [if_pos (by rw [hs]; rfl)]
    omega
  have hget : ∃ u, r.get c.hId true = .ok u := by
    obtain ⟨e, he⟩ := GElmCtrl.Held.find hr hheld
    unfold get paxosAcceptGet GElmCtrl.get
    rw [he]
    exact ⟨_, rfl⟩
  obtain ⟨u, hu⟩ := hget
  have hua := (get_accept hr hheld hu).trans ha
  obtain ⟨k, -, hku⟩ := get_ok hu
  have hpass : a.isAccepted c = .ok (a, 0) := by
    unfold PaxosAccept.isAccepted
    rw [if_neg (by simp [PaxosAccept.reuses, c]), hx c rfl]
    rfl
  -- the request arrives, passes the duplicate test and sets `CLOSING`
  let r₁ : PaxosAcceptor σ := { u with workers := u.workers ++ [{ pH := c }] }
  let r₂ := (r₁.update m.hId.toSessionId fun _ => a).turn { pH := c } .accepted
  let w₂ : Worker := { pH := c, stage := .accepted }
  let r₃ := (r₂.update m.hId.toSessionId fun a => { a with aOpened := .closing }).turn w₂
    (.closing .opened)
  have h₁ : acceptorAct f log r (.arrive c) = .ok r₁ := by
    unfold acceptorAct
    simp only
    rw [hu]
  have ha₁ : r₁.accept m.hId.toSessionId = some a := hua
  have h₂ : acceptorAct f log r₁ (.work { pH := c } false) = .ok r₂ := by
    have hw : ({ pH := c } : Worker) ∈ r₁.workers := List.mem_append_right _ (by simp)
    unfold acceptorAct threadWorker workerIsAccepted PaxosAcceptor.isAccepted
    simp only [hw, if_true]
    have hc : r₁.accept c.hId.toSessionId = some a := ha₁
    rw [hc]
    simp only
    rw [hpass]
    rfl
  have ha₂ : r₂.accept m.hId.toSessionId = some a := by
    change (r₁.update m.hId.toSessionId fun _ => a).accept _ = _
    rw [accept_update, if_pos rfl, ha₁]
    rfl
  have h₃ : acceptorAct f log r₂ (.work w₂ false) = .ok r₃ := by
    have hw : w₂ ∈ r₂.workers := List.mem_append_right _ (by simp [w₂])
    unfold acceptorAct threadWorker
    simp only [hw, if_true]
    have hc : r₂.accept w₂.session = some a := ha₂
    rw [hc]
    simp only
    unfold workerRequest
    simp only [w₂, c]
    rw [if_neg (by simp [ho]), ho]
    rfl
  refine ⟨[.arrive c, .work { pH := c } false, .work w₂ false], r₃, by simp, ?_, ?_, ?_, ?_⟩
  · simp [run, h₁, h₂, h₃, Except.bind]
  · change u.stage = .isAccepted m
    rw [hku]
    exact hs
  · change (r₂.update m.hId.toSessionId fun a => { a with aOpened := .closing }).accept _ = _
    rw [accept_update, if_pos rfl, ha₂]
    rfl
  · intro w hw hgot hacc
    apply List.mem_append_left
    rw [List.mem_erase_of_ne (by rintro rfl; exact hacc rfl)]
    apply List.mem_append_left
    rw [List.mem_erase_of_ne (by rintro rfl; exact hgot rfl)]
    apply List.mem_append_left
    rw [hku]
    exact hw

theorem not_spins_of_mayFail (hr : r.Sound) (hs : r.stage = .isAccepted m)
    (ha : r.accept m.hId.toSessionId = some a) (hm : r.MayFail m.hId.toSessionId a) :
    ¬ Spins f log r := by
  obtain ⟨⟨w, hw, hws, hp⟩, ho | ⟨v, hv, hvs, hvp⟩⟩ := hm
  · exact not_spins_of_opening hs ha ho hw hws hp
  · cases ho : a.aOpened with
    | binded =>
        intro hspin
        exact not_waits ha hs (.inl ho) (hspin [] r (by simp) rfl)
    | opening => exact not_spins_of_opening hs ha ho hw hws hp
    | closing => exact not_spins_of_closing hs ha ho hw hws hp hv hvs hvp
    | opened =>
        intro hspin
        obtain ⟨xs, t, hxs, ht, hts, hta, hmem⟩ := close_arrives f log hr.counted hs ha ho
        exact not_spins_of_closing hts hta rfl (hmem w hw (by simp [hp]) (by simp [hp])) hws hp
          (hmem v hv (by simp [hvp]) (by simp [hvp])) hvs hvp (spins_run hspin hxs ht)

end PaxosAcceptor

/-! ### Results -/

/-- An application that does nothing. -/
def idleIF : AcceptorIF Unit where
  isRead := fun _ => false
  fSessionOpen := fun _ x => (x, 0)
  fAccepted := fun _ x => (x, [])
  fSessionClose := fun _ x => (x, [], 0)
  fRead := fun _ _ => { mSize := 1 }
  head := fun _ _ _ => []
  rpl := fun _ _ => { mSize := 1 }

/-- A session opens, runs a command, and a copy of its `OPEN` is decided. -/
def reopenLog : List PaxosSessionHead :=
  [{ hCmd := .sessionOpen, hId := { iPid := 1, iSeq := 1, iTry := 1 } },
    { hCmd := .app 7, hId := { iPid := 1, iSeq := 2, iTry := 1, iSeqWait := 1 } },
    { hCmd := .sessionOpen, hId := { iPid := 1, iSeq := 1, iTry := 2 } }]

end PaxosSolutions
