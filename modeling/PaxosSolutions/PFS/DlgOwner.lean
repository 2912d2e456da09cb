import PaxosSolutions.PFS.Delegation

/-!
# A delegation and the lock in the service

`d_Own` and `d_Ver` are those of the only hold the session has on the lock, and
`d_fTerm` is called once between a `d_fInit` and the release of the lock. It
takes that no call gives the lock up halfway: an upgrade is granted the write
lock, and a return or a recall is let to release what `d_fTerm` has ended.
-/
namespace PaxosSolutions
open Lib NWGadget
variable {H : Type}

/-- The calls of `d_fTerm` since the `d_fInit` of the lock. -/
def DlgEvent.countTerm (n : Option ℕ) : DlgEvent H → Option ℕ
  | .inited => some 0
  | .termed => n.map (· + 1)
  | .unlocked => none
  | _ => n

def sinceInit (log : List (DlgEvent H)) : Option ℕ := log.foldl DlgEvent.countTerm none

@[simp] theorem sinceInit_append_singleton (log : List (DlgEvent H)) (x : DlgEvent H) :
    sinceInit (log ++ [x]) = x.countTerm (sinceInit log) := by
  simp [sinceInit]

/-- A call of `d_fTerm` -/
def DlgEvent.terms : DlgEvent H → Bool
  | .termed => true
  | _ => false

/-- A `d_fInit` finds no other, and a release one call of `d_fTerm` if there
was a `d_fInit`. -/
def DlgEvent.TermsOnce (log : List (DlgEvent H)) (x : DlgEvent H) : Prop :=
  (x = .inited → sinceInit log = none) ∧
    (x = .unlocked → sinceInit log = none ∨ sinceInit log = some 1)

theorem sinceInit_of_not_mem {pre mid : List (DlgEvent H)} (hi : .inited ∉ mid)
    (hu : .unlocked ∉ mid) :
    sinceInit (pre ++ .inited :: mid) = some (mid.countP DlgEvent.terms) := by
  induction mid using List.reverseRecOn with
  | nil => simp [DlgEvent.countTerm]
  | append_singleton mid x ih =>
      rw [← List.cons_append, ← List.append_assoc, sinceInit_append_singleton,
        ih (by simp_all) (by simp_all), List.countP_append]
      cases x with
      | granted h own => rfl
      | released h => rfl
      | inited => simp at hi
      | termed => rfl
      | unlocked => simp at hu

/-- Between a `d_fInit` and the next release `d_fTerm` is called once. -/
theorem termed_once {log pre mid post : List (DlgEvent H)} (h : Each DlgEvent.TermsOnce log)
    (hlog : log = pre ++ .inited :: mid ++ .unlocked :: post) (hu : .unlocked ∉ mid) :
    mid.countP DlgEvent.terms = 1 := by
  have hi : .inited ∉ mid := by
    intro hmem
    obtain ⟨u, v, rfl, hnot⟩ := List.eq_append_cons_of_mem hmem
    have hu' : .unlocked ∉ u := fun hm => hu (List.mem_append_left _ hm)
    have hnone := (h (pre ++ .inited :: u) .inited (v ++ .unlocked :: post) (by simp [hlog])).1 rfl
    rw [sinceInit_of_not_mem hnot hu'] at hnone
    cases hnone
  have hone := (h _ _ _ hlog).2 rfl
  rw [sinceInit_of_not_mem hi hu] at hone
  simpa using hone

namespace DlgSys
variable {s : DlgSys H} {h : H} {own : DlgOwn} {e : DlgEnv} {ver verOld : UInt32} {fTerm : Bool}

/-- `d_Own` and `d_Ver` are those of the hold in the service. -/
structure Owned (fTerm : Bool) (s : DlgSys H) : Prop where
  held : s.held = if s.dOwn = .none then [] else [(s.dOwn, s.dVer)]
  since : sinceInit s.log = none ∨ s.dOwn ≠ .none ∧ sinceInit s.log = some 0
  once : fTerm = true → Each DlgEvent.TermsOnce s.log
  dFTerm : s.dFTerm = fTerm

/-- The session has no hold, and what `d_fInit` began is ended. -/
structure Freed (fTerm : Bool) (s : DlgSys H) : Prop where
  held : s.held = []
  since : sinceInit s.log = none
  once : fTerm = true → Each DlgEvent.TermsOnce s.log
  dFTerm : s.dFTerm = fTerm

/-- A call that gives up a read lock for the write lock is granted it, and
`d_fTerm` lets it. -/
def Upgrades (s : DlgSys H) (h : H) (e : DlgEnv) : Prop :=
  s.dWaitRecall = 0 → s.dOwn = .r →
    ¬ (1 < s.dHold.length ∨ (s.dHold.length = 1 ∧ h ∉ s.dHold)) →
      (s.dFTerm = true → 0 ≤ e.fTerm) ∧ ∃ lVer, e.lock = .granted lVer

/-- `d_fTerm` is successful and the service releases the lock. -/
def GivesBack (s : DlgSys H) (e : DlgEnv) : Prop :=
  s.dOwn ≠ .none → (s.dFTerm = true → e.fTerm = 0) ∧ e.unlockSuper = true

theorem Owned.freed (hs : s.Owned fTerm) (ho : s.dOwn = .none) : s.Freed fTerm where
  held := by rw [hs.held, if_pos ho]
  since := hs.since.resolve_right fun h => h.1 ho
  once := hs.once
  dFTerm := hs.dFTerm

theorem Freed.owned {dVer : UInt32} (hs : s.Freed fTerm) :
    { s with dOwn := .none, dVer := dVer }.Owned fTerm where
  held := hs.held
  since := .inl hs.since
  once := hs.once
  dFTerm := hs.dFTerm

theorem Owned.term_unlock (hs : s.Owned fTerm) (ho : s.dOwn ≠ .none) :
    s.term.unlock.Freed fTerm := by
  have hheld : s.term.held = [(s.dOwn, s.dVer)] := by rw [term_held, hs.held, if_neg ho]
  rw [unlock_of_held hheld]
  have hsince : fTerm = true → sinceInit s.term.log = none ∨ sinceInit s.term.log = some 1 := by
    intro hf
    unfold DlgSys.term note
    rw [if_pos (hs.dFTerm.trans hf), sinceInit_append_singleton]
    rcases hs.since with h | ⟨-, h⟩ <;> simp [h, DlgEvent.countTerm]
  have honce : fTerm = true → Each DlgEvent.TermsOnce s.term.log := by
    intro hf
    unfold DlgSys.term note
    rw [if_pos (hs.dFTerm.trans hf)]
    exact (hs.once hf).concat ⟨by simp, by simp⟩
  constructor
  · rfl
  · simp [note, DlgEvent.countTerm]
  · intro hf
    exact (honce hf).concat ⟨by simp, fun _ => hsince hf⟩
  · unfold DlgSys.term note
    split <;> exact hs.dFTerm

theorem Owned.grant (hs : s.Owned fTerm) : (s.grant h own).Owned fTerm where
  held := hs.held
  since := by simpa [DlgSys.grant, note, DlgEvent.countTerm] using hs.since
  once hf := (hs.once hf).concat ⟨by simp, by simp⟩
  dFTerm := hs.dFTerm

/-- The lock is granted to a session that has none: `d_Own` is that of the
lock, or the lock is released again. -/
theorem Freed.locked (hs : s.Freed fTerm) (hown : own ≠ .none) :
    (s.locked own h ver verOld e).Owned fTerm := by
  have hunlock (t : DlgSys H) (ht : t.held = [(own, ver)]) (hlog : t.log = s.log)
      (hterm : t.dFTerm = s.dFTerm) : t.unlock.Freed fTerm := by
    rw [unlock_of_held ht]
    constructor
    · rfl
    · simp [note, DlgEvent.countTerm]
    · intro hf
      simp only [note, hlog]
      exact (hs.once hf).concat ⟨by simp, fun _ => .inl hs.since⟩
    · exact hterm.trans hs.dFTerm
  unfold DlgSys.locked
  dsimp only
  split_ifs
  · exact (hunlock { s with held := (own, ver) :: s.held } (by simp [hs.held]) rfl rfl).owned
  · apply Owned.grant
    constructor
    · simp [hs.held, hown]
    · exact .inl hs.since
    · exact hs.once
    · exact hs.dFTerm
  · have hheld : (own, ver) :: s.held = [(own, ver)] := by rw [hs.held]
    exact Freed.owned
      (hunlock { s with held := _, dOwnOld := _, dOwn := _, dVer := _ } hheld rfl rfl)
  · apply Owned.grant
    constructor
    · simp [note, hs.held, hown]
    · simp [note, hown, DlgEvent.countTerm]
    · intro hf
      exact (hs.once hf).concat ⟨fun _ => hs.since, by simp⟩
    · exact hs.dFTerm

theorem Owned.giveBack (hs : s.Owned fTerm) (hg : s.GivesBack e) : (s.giveBack e).Owned fTerm := by
  unfold DlgSys.giveBack
  split_ifs with ho hterm hun
  · exact hs
  · exact absurd ((hg ho).1 hterm.1) hterm.2
  · rcases hun with hun | hun
    · rw [(hg ho).2] at hun
      cases hun
    · rw [hs.held, if_neg ho] at hun
      cases hun
  · exact (hs.term_unlock ho).owned

theorem Owned.recallAgain (hs : s.Owned fTerm) (hg : s.dHold = [] → s.GivesBack e) :
    (s.recallAgain e).Owned fTerm := by
  unfold DlgSys.recallAgain
  split
  · exact ⟨hs.held, hs.since, hs.once, hs.dFTerm⟩
  · rename_i hloop
    exact hs.giveBack (hg (by simpa using hloop))

/-- `d_Own` is `own` iff the session has exactly one hold on the lock, of that
mode, and `d_Ver` is its version; it is 0 iff there is none. -/
structure AgreesWithService (s : DlgSys H) : Prop where
  none : s.dOwn = .none ↔ s.held = []
  r : s.dOwn = .r ↔ ∃ lVer, s.held = [(.r, lVer)]
  w : s.dOwn = .w ↔ ∃ lVer, s.held = [(.w, lVer)]
  dVer : ∀ own lVer, s.held = [(own, lVer)] → s.dVer = lVer

theorem Owned.agrees (hs : s.Owned fTerm) : s.AgreesWithService := by
  have hheld := hs.held
  constructor
  all_goals cases ho : s.dOwn <;> simp [hheld, ho]

variable [DecidableEq H]

theorem Owned.holdRAgain (hs : s.Owned fTerm) : (s.holdRAgain h verOld e).Owned fTerm := by
  unfold DlgSys.holdRAgain
  split
  · exact ⟨hs.held, hs.since, hs.once, hs.dFTerm⟩
  split
  · exact Owned.grant ⟨hs.held, hs.since, hs.once, hs.dFTerm⟩
  · split
    · exact ⟨hs.held, hs.since, hs.once, hs.dFTerm⟩
    · exact Owned.grant ⟨hs.held, hs.since, hs.once, hs.dFTerm⟩
  · rename_i ho
    split
    · exact (hs.freed ho).locked (by simp)
    · exact hs

theorem Owned.holdWAgain (hs : s.Owned fTerm) (hu : s.Upgrades h e) :
    (s.holdWAgain h verOld e).Owned fTerm := by
  unfold DlgSys.holdWAgain
  split
  · exact ⟨hs.held, hs.since, hs.once, hs.dFTerm⟩
  rename_i hrec
  split
  · split
    · exact ⟨hs.held, hs.since, hs.once, hs.dFTerm⟩
    · exact Owned.grant ⟨hs.held, hs.since, hs.once, hs.dFTerm⟩
  · rename_i ho
    split
    · exact ⟨hs.held, hs.since, hs.once, hs.dFTerm⟩
    rename_i hwait
    obtain ⟨hterm, ver, hlock⟩ := hu (by simpa using hrec) ho hwait
    split
    · rename_i hfail
      have := hterm hfail.1
      omega
    · rw [hlock]
      exact (hs.term_unlock (by simp [ho])).locked (by simp)
  · rename_i ho
    split
    · exact (hs.freed ho).locked (by simp)
    · exact hs

theorem Owned.returnAgain (hs : s.Owned fTerm)
    (hg : ¬ (0 < s.dHold.length ∧ ¬ (s.dHold.length = 1 ∧ h ∈ s.dHold)) → s.GivesBack e) :
    (s.returnAgain h e).Owned fTerm := by
  unfold DlgSys.returnAgain
  split
  · exact ⟨hs.held, hs.since, hs.once, hs.dFTerm⟩
  · rename_i hloop
    exact hs.giveBack (hg hloop)

/-- No call gives up the lock halfway: the session is live, an upgrade is
granted, and a return and a recall give back what they end. -/
def KeepsLock (s : DlgSys H) (a : DlgAct H × DlgEnv) : Prop :=
  match a.1 with
  | .holdW h => s.Upgrades h a.2
  | .wake (.holdW h _ _) => s.Upgrades h a.2
  | .return h | .wake (.return h) =>
      ¬ (0 < s.dHold.length ∧ ¬ (s.dHold.length = 1 ∧ h ∈ s.dHold)) → s.GivesBack a.2
  | .dlgRecall elVer => seqCmp s.dVer elVer = 0 → s.dHold = [] → s.GivesBack a.2
  | .wake .dlgRecall => s.dHold = [] → s.GivesBack a.2
  | _ => True

theorem Owned.step {t : DlgSys H} {a : DlgAct H × DlgEnv} (hs : s.Owned fTerm)
    (hlive : a.2.err = 0) (hk : s.KeepsLock a) (ht : dlgStep s a = .ok t) : t.Owned fTerm := by
  obtain ⟨a, e⟩ := a
  unfold dlgStep at ht
  cases a with
  | holdR h =>
      cases ht
      unfold DlgSys.holdR
      rw [if_neg (by simpa using hlive)]
      exact Owned.holdRAgain ⟨hs.held, hs.since, hs.once, hs.dFTerm⟩
  | holdW h =>
      cases ht
      unfold DlgSys.holdW
      rw [if_neg (by simpa using hlive)]
      exact Owned.holdWAgain ⟨hs.held, hs.since, hs.once, hs.dFTerm⟩ hk
  | release h =>
      cases ht
      unfold DlgSys.release
      split
      · constructor
        · exact hs.held
        · simpa [note, DlgEvent.countTerm] using hs.since
        · intro hf
          exact (hs.once hf).concat ⟨by simp, by simp⟩
        · exact hs.dFTerm
      · exact hs
  | «return» h =>
      cases ht
      exact hs.returnAgain hk
  | dlgRecall elVer =>
      cases ht
      unfold DlgSys.dlgRecall
      split
      · rename_i hr
        exact hs.recallAgain (hk hr.2)
      · exact hs
  | wake b =>
      dsimp only at ht
      split at ht
      swap
      · cases ht
      cases ht
      unfold DlgSys.wake
      split
      · exact Owned.holdRAgain ⟨hs.held, hs.since, hs.once, hs.dFTerm⟩
      · exact Owned.holdRAgain ⟨hs.held, hs.since, hs.once, hs.dFTerm⟩
      · exact Owned.holdWAgain ⟨hs.held, hs.since, hs.once, hs.dFTerm⟩ hk
      · exact Owned.holdWAgain ⟨hs.held, hs.since, hs.once, hs.dFTerm⟩ hk
      · exact Owned.returnAgain ⟨hs.held, hs.since, hs.once, hs.dFTerm⟩ hk
      · exact Owned.recallAgain ⟨hs.held, hs.since, hs.once, hs.dFTerm⟩ hk

end DlgSys

/-! ### Results -/

/-- In every run with a live session in which no call gives the lock up
halfway: the delegation agrees with the service, and `d_fTerm` is called once
between a successful `d_fInit` and the release of the lock. -/
theorem dlg_agrees [DecidableEq H] (fInit fTerm : Bool) (as : List (DlgAct H × DlgEnv))
    (t : DlgSys H)
    (hC : Along dlgStep (fun s a => a.2.err = 0 ∧ s.KeepsLock a) (pfsDlgInit H fInit fTerm) as)
    (h : run dlgStep (pfsDlgInit H fInit fTerm) as = .ok t) :
    t.AgreesWithService ∧
      (fTerm = true → ∀ pre mid post, t.log = pre ++ .inited :: mid ++ .unlocked :: post →
        .unlocked ∉ mid → mid.countP DlgEvent.terms = 1) := by
  have hinit : (pfsDlgInit H fInit fTerm).Owned fTerm :=
    ⟨rfl, .inl rfl, fun _ => each_nil, rfl⟩
  have ht : t.Owned fTerm :=
    run_invariant (fun _ _ _ hs hk hu => DlgSys.Owned.step hs hk.1 hk.2 hu) hinit hC h
  refine ⟨ht.agrees, ?_⟩
  intro hf pre mid post hlog hu
  exact termed_once (ht.once hf) hlog hu

/-- A read hold is released and the holder asks for a write hold, which is
refused: `d_Own` stays `PFS_DLG_R`. -/
def failedUpgrade : List (DlgAct ℕ × DlgEnv) :=
  [(.holdR 1, { lock := .granted 1 }), (.holdW 1, { lock := .ebusy })]

theorem dlg_not_agrees : ∃ t : DlgSys ℕ,
    run dlgStep (pfsDlgInit ℕ true true) failedUpgrade = .ok t ∧
      (∀ a ∈ failedUpgrade, a.2.err = 0) ∧ ¬ t.AgreesWithService := by
  refine ⟨_, rfl, by decide, ?_⟩
  intro ht
  exact absurd (ht.none.mpr rfl) (by decide)

/-- A write hold is released and the delegation is returned. -/
def heldAndReturned : List (DlgAct ℕ × DlgEnv) :=
  [(.holdW 1, { lock := .granted 1 }), (.release 1, {}), (.return 1, {})]

theorem dlg_agrees_returned : ∃ t : DlgSys ℕ,
    run dlgStep (pfsDlgInit ℕ true true) heldAndReturned = .ok t ∧ t.AgreesWithService ∧
      [DlgEvent.granted 1 .w, .released 1, .termed].countP DlgEvent.terms = 1 := by
  refine ⟨_, rfl, ?_⟩
  have hC : Along dlgStep (fun s a => a.2.err = 0 ∧ s.KeepsLock a) (pfsDlgInit ℕ true true)
      heldAndReturned := by
    refine ⟨⟨rfl, fun _ ho => absurd ho (by decide)⟩, ?_⟩
    intro t ht
    cases ht
    refine ⟨⟨rfl, trivial⟩, ?_⟩
    intro t ht
    cases ht
    exact ⟨⟨rfl, fun _ _ => ⟨fun _ => rfl, rfl⟩⟩, fun _ _ => trivial⟩
  obtain ⟨hagrees, hterm⟩ := dlg_agrees true true heldAndReturned _ hC rfl
  exact ⟨hagrees, hterm rfl [] _ [] rfl (by decide)⟩

end PaxosSolutions
