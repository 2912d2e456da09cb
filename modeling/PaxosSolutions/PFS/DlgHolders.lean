import PaxosSolutions.PFS.Delegation

/-!
# The local holders of a delegation

`d_Hold` does not say how an item is held. While the delegation is `PFS_DLG_R`
every hold that is out is a read hold, and while it is `PFS_DLG_W` one holder
has all of them. Where that is so no step lets another holder in next to a
write hold.
-/
namespace PaxosSolutions
open Lib
variable {H : Type} [DecidableEq H]

/-- The holds that are out, the latest first. A release ends the latest hold of
its holder. -/
def DlgEvent.apply (out : List (H × DlgOwn)) : DlgEvent H → List (H × DlgOwn)
  | .granted h own => (h, own) :: out
  | .released h => out.eraseP fun g => g.1 = h
  | _ => out

def outstanding (log : List (DlgEvent H)) : List (H × DlgOwn) := log.foldl DlgEvent.apply []

theorem outstanding_append_singleton (log : List (DlgEvent H)) (x : DlgEvent H) :
    outstanding (log ++ [x]) = x.apply (outstanding log) := by
  simp [outstanding]

/-- Not a hold and not a release of one. -/
def DlgEvent.Quiet (x : DlgEvent H) : Prop := x = .inited ∨ x = .termed ∨ x = .unlocked

/-- A write hold of `a` is followed by holds of `a` only until it is released. -/
def DlgEvent.Admitted (log : List (DlgEvent H)) (x : DlgEvent H) : Prop :=
  ∀ b own, x = .granted b own → ∀ g ∈ outstanding log, g.2 = .w → g.1 = b

/-- What `d_Own` says of the holds that are out. -/
structure Guarded (own : DlgOwn) (hold : List H) (log : List (DlgEvent H)) : Prop where
  holders : (outstanding log).map Prod.fst = hold
  read : own = .r → ∀ g ∈ outstanding log, g.2 = .r
  write : own = .w → ∀ k ∈ hold, ∀ l ∈ hold, k = l
  admitted : Each DlgEvent.Admitted log

namespace Guarded
variable {own o : DlgOwn} {hold : List H} {log : List (DlgEvent H)} {h : H} {x : DlgEvent H}

theorem quiet (hs : Guarded own hold log) (hx : x.Quiet) : Guarded own hold (log ++ [x]) := by
  have hout : outstanding (log ++ [x]) = outstanding log := by
    rw [outstanding_append_singleton]
    rcases hx with rfl | rfl | rfl <;> rfl
  constructor
  · rw [hout]
    exact hs.holders
  · rw [hout]
    exact hs.read
  · exact hs.write
  · apply hs.admitted.concat
    intro b o hb
    rcases hx with rfl | rfl | rfl <;> cases hb

/-- Without the lock `d_Own` says nothing. -/
theorem lost (hs : Guarded own hold log) : Guarded .none hold log where
  holders := hs.holders
  read := by simp
  write := by simp
  admitted := hs.admitted

theorem regain_read (hs : Guarded own hold log) (hr : ∀ g ∈ outstanding log, g.2 = .r) :
    Guarded .r hold log where
  holders := hs.holders
  read _ := hr
  write := by simp
  admitted := hs.admitted

theorem regain_write (hs : Guarded own hold log) (hw : ∀ k ∈ hold, k = h) :
    Guarded .w hold log where
  holders := hs.holders
  read := by simp
  write _ k hk l hl := (hw k hk).trans (hw l hl).symm
  admitted := hs.admitted

theorem grant_read (hs : Guarded .r hold log) :
    Guarded .r (h :: hold) (log ++ [.granted h .r]) := by
  have hout : outstanding (log ++ [.granted h .r]) = (h, .r) :: outstanding log :=
    outstanding_append_singleton _ _
  constructor
  · rw [hout, List.map_cons, hs.holders]
  · intro _ g hg
    rw [hout] at hg
    rcases List.mem_cons.mp hg with rfl | hg
    · rfl
    · exact hs.read rfl g hg
  · simp
  · apply hs.admitted.concat
    intro b o hb g hg hgw
    rw [hs.read rfl g hg] at hgw
    cases hgw

theorem grant_write (hs : Guarded .w hold log) (hw : ∀ k ∈ hold, k = h) :
    Guarded .w (h :: hold) (log ++ [.granted h o]) := by
  have hout : outstanding (log ++ [.granted h o]) = (h, o) :: outstanding log :=
    outstanding_append_singleton _ _
  constructor
  · rw [hout, List.map_cons, hs.holders]
  · simp
  · intro _ k hk l hl
    have hall : ∀ k ∈ h :: hold, k = h := by simpa using hw
    exact (hall k hk).trans (hall l hl).symm
  · apply hs.admitted.concat
    intro b o hb g hg _
    cases hb
    apply hw
    rw [← hs.holders]
    exact List.mem_map_of_mem hg

theorem release (hs : Guarded own hold log) :
    Guarded own (hold.erase h) (log ++ [.released h]) := by
  have hout : outstanding (log ++ [.released h]) = (outstanding log).eraseP fun g => g.1 = h :=
    outstanding_append_singleton _ _
  constructor
  · rw [hout, ← hs.holders, List.erase_eq_eraseP', List.eraseP_map]
    congr 2
  · intro ho g hg
    rw [hout] at hg
    exact hs.read ho g (List.mem_of_mem_eraseP hg)
  · intro ho k hk l hl
    exact hs.write ho k (List.mem_of_mem_erase hk) l (List.mem_of_mem_erase hl)
  · apply hs.admitted.concat
    intro b o hb
    cases hb

end Guarded

namespace DlgSys
variable {s : DlgSys H} {h : H} {own : DlgOwn} {e : DlgEnv} {ver verOld : UInt32}

def Excludes (s : DlgSys H) : Prop := Guarded s.dOwn s.dHold s.log

/-- `_PFSDlgHoldR` does not meet a write delegation with several holds of
others, nor a delegation that is not there with a write hold that is out. -/
def HoldRFits (s : DlgSys H) (h : H) : Prop :=
  s.dWaitRecall = 0 →
    (s.dOwn = .w → h ∈ s.dHold ∨ s.dHold.length ≤ 1) ∧
      (s.dOwn = .none → ∀ g ∈ outstanding s.log, g.2 = .r)

/-- `_PFSDlgHoldW` does not meet a delegation that is not there with holds of
others. -/
def HoldWFits (s : DlgSys H) (h : H) : Prop :=
  s.dWaitRecall = 0 → s.dOwn = .none → ∀ k ∈ s.dHold, k = h

/-- The holds that are asked for fit, as long as the session is not in error. -/
def HoldsFit (s : DlgSys H) (a : DlgAct H × DlgEnv) : Prop :=
  match a.1 with
  | .holdR h => a.2.err = 0 → s.HoldRFits h
  | .holdW h => a.2.err = 0 → s.HoldWFits h
  | .wake (.holdR h _ _) => s.HoldRFits h
  | .wake (.holdW h _ _) => s.HoldWFits h
  | _ => True

instance (s : DlgSys H) (h : H) : Decidable (s.HoldRFits h) :=
  inferInstanceAs (Decidable (_ → _ ∧ _))

instance (s : DlgSys H) (h : H) : Decidable (s.HoldWFits h) :=
  inferInstanceAs (Decidable (_ → _ → _))

instance (s : DlgSys H) (a : DlgAct H × DlgEnv) : Decidable (s.HoldsFit a) :=
  match a with
  | (.holdR h, e) => inferInstanceAs (Decidable (e.err = 0 → s.HoldRFits h))
  | (.holdW h, e) => inferInstanceAs (Decidable (e.err = 0 → s.HoldWFits h))
  | (.wake (.holdR h _ _), _) => inferInstanceAs (Decidable (s.HoldRFits h))
  | (.wake (.holdW h _ _), _) => inferInstanceAs (Decidable (s.HoldWFits h))
  | (.wake (.return _), _) => .isTrue trivial
  | (.wake .dlgRecall, _) => .isTrue trivial
  | (.release _, _) => .isTrue trivial
  | (.return _, _) => .isTrue trivial
  | (.dlgRecall _, _) => .isTrue trivial

theorem Excludes.term (hs : s.Excludes) : s.term.Excludes := by
  unfold DlgSys.term
  split
  · exact hs.quiet (.inr (.inl rfl))
  · exact hs

theorem Excludes.unlock (hs : s.Excludes) : s.unlock.Excludes := by
  unfold DlgSys.unlock
  split
  · exact hs
  · exact hs.quiet (.inr (.inr rfl))

theorem Excludes.lose (hs : s.Excludes) : s.lose.Excludes := by
  unfold DlgSys.lose
  split
  · exact hs.lost
  · exact hs.term.lost

theorem Excludes.giveBack (hs : s.Excludes) : (s.giveBack e).Excludes := by
  unfold DlgSys.giveBack
  split_ifs
  · exact hs
  · exact hs.term
  · exact hs.term
  · exact hs.term.unlock.lost

/-- A lock that is granted lets `h` in as `own` if what is out fits. -/
theorem Excludes.locked (hs : s.Excludes)
    (hown : own = .r ∧ (∀ g ∈ outstanding s.log, g.2 = .r) ∨
      own = .w ∧ ∀ k ∈ s.dHold, k = h) :
    (s.locked own h ver verOld e).Excludes := by
  unfold DlgSys.locked
  have hheld : ({ s with held := (own, ver) :: s.held } : DlgSys H).Excludes := hs
  have hregain : Guarded own s.dHold s.log := by
    rcases hown with ⟨rfl, hr⟩ | ⟨rfl, hw⟩
    · exact hs.regain_read hr
    · exact hs.regain_write hw
  have hgrant (log) (hlog : Guarded own s.dHold log) :
      Guarded own (h :: s.dHold) (log ++ [.granted h own]) := by
    rcases hown with ⟨rfl, -⟩ | ⟨rfl, hw⟩
    · exact hlog.grant_read
    · exact hlog.grant_write hw
  dsimp only
  split_ifs
  · exact hheld.unlock.lost
  · exact hgrant _ hregain
  · exact (Excludes.unlock (s := { s with held := _, dOwnOld := _, dOwn := _, dVer := _ })
      hregain).lost
  · exact hgrant _ (hregain.quiet (.inl rfl))

theorem Excludes.holdRAgain (hs : s.Excludes) (hf : s.HoldRFits h) :
    (s.holdRAgain h verOld e).Excludes := by
  unfold DlgSys.holdRAgain
  split
  · exact hs
  rename_i hrec
  obtain ⟨hw, hn⟩ := hf (by simpa using hrec)
  split
  · rename_i ho
    have hr : Guarded .r s.dHold s.log := ho ▸ hs
    unfold Excludes
    dsimp only [grant, note]
    rw [ho]
    exact hr.grant_read
  · rename_i ho
    split
    · exact hs
    · rename_i hwait
      have hall : ∀ k ∈ s.dHold, k = h := by
        intro k hk
        rcases hw ho with hmem | hlen
        · exact hs.write ho k hk h hmem
        · by_contra hne
          apply hwait
          have hpos := List.length_pos_of_mem hk
          have hone : s.dHold.length = 1 := by omega
          obtain ⟨l, hl⟩ := List.length_eq_one_iff.mp hone
          rw [hl] at hk ⊢
          obtain rfl := List.mem_singleton.mp hk
          exact ⟨by simpa using Ne.symm hne, rfl⟩
      have hr : Guarded .w s.dHold s.log := ho ▸ hs
      unfold Excludes
      dsimp only [grant, note]
      rw [ho]
      exact hr.grant_write hall
  · rename_i ho
    split
    · exact hs.locked (.inl ⟨rfl, hn ho⟩)
    · exact hs

theorem Excludes.holdWAgain (hs : s.Excludes) (hf : s.HoldWFits h) :
    (s.holdWAgain h verOld e).Excludes := by
  unfold DlgSys.holdWAgain
  split
  · exact hs
  rename_i hrec
  have hn := hf (by simpa using hrec)
  split
  · rename_i ho
    split
    · exact hs
    · rename_i hwait
      have hall : ∀ k ∈ s.dHold, k = h := by
        intro k hk
        have hmem : h ∈ s.dHold := by
          by_contra hne
          exact hwait ⟨List.length_pos_of_mem hk, hne⟩
        exact hs.write ho k hk h hmem
      have hr : Guarded .w s.dHold s.log := ho ▸ hs
      unfold Excludes
      dsimp only [grant, note]
      rw [ho]
      exact hr.grant_write hall
  · split_ifs with hwait
    · exact hs
    · exact hs.term
    · have hall : ∀ k ∈ s.term.unlock.dHold, k = h := by
        intro k hk
        rw [unlock_dHold, term_dHold] at hk
        have hpos := List.length_pos_of_mem hk
        push Not at hwait
        have hone : s.dHold.length = 1 := by omega
        have hmem := hwait.2 hone
        obtain ⟨l, hl⟩ := List.length_eq_one_iff.mp hone
        rw [hl] at hk hmem
        rw [List.mem_singleton.mp hk, List.mem_singleton.mp hmem]
      split
      · exact hs.term.unlock.locked (.inr ⟨rfl, hall⟩)
      · exact hs.term.unlock
  · rename_i ho
    split
    · exact hs.locked (.inr ⟨rfl, hn ho⟩)
    · exact hs

theorem Excludes.returnAgain (hs : s.Excludes) : (s.returnAgain h e).Excludes := by
  unfold DlgSys.returnAgain
  split
  · exact hs
  · exact hs.giveBack

theorem Excludes.recallAgain (hs : s.Excludes) : (s.recallAgain e).Excludes := by
  unfold DlgSys.recallAgain
  split
  · exact hs
  · exact hs.giveBack

/-- What a step keeps where the holds fit. -/
theorem Excludes.step {t : DlgSys H} {a : DlgAct H × DlgEnv} (hs : s.Excludes)
    (hf : s.HoldsFit a) (ht : dlgStep s a = .ok t) : t.Excludes := by
  obtain ⟨a, e⟩ := a
  unfold dlgStep at ht
  cases a with
  | holdR h =>
      cases ht
      unfold DlgSys.holdR
      dsimp only
      split
      · exact Excludes.lose (s := { s with dErr := e.err }) hs
      · rename_i herr
        exact Excludes.holdRAgain (s := { s with dErr := e.err }) hs (hf (by simpa using herr))
  | holdW h =>
      cases ht
      unfold DlgSys.holdW
      dsimp only
      split
      · exact Excludes.lose (s := { s with dErr := e.err }) hs
      · rename_i herr
        exact Excludes.holdWAgain (s := { s with dErr := e.err }) hs (hf (by simpa using herr))
  | release h =>
      cases ht
      unfold DlgSys.release
      split
      · exact Guarded.release hs
      · exact hs
  | «return» h =>
      cases ht
      exact hs.returnAgain
  | dlgRecall elVer =>
      cases ht
      unfold DlgSys.dlgRecall
      split
      · exact hs.recallAgain
      · exact hs
  | wake b =>
      dsimp only at ht
      split at ht
      swap
      · cases ht
      cases ht
      have hw : ({ s with blocked := s.blocked.erase b } : DlgSys H).Excludes := hs
      unfold DlgSys.wake
      split
      · exact Excludes.holdRAgain (s := { s with blocked := _, dWait := _ }) hs hf
      · exact Excludes.holdRAgain hw hf
      · exact Excludes.holdWAgain (s := { s with blocked := _, dWait := _ }) hs hf
      · exact Excludes.holdWAgain hw hf
      · exact Excludes.returnAgain (s := { s with blocked := _, dWait := _ }) hs
      · exact Excludes.recallAgain (s := { s with blocked := _, dWaitRecall := _ }) hs

theorem excludes_init (fInit fTerm : Bool) : (pfsDlgInit H fInit fTerm).Excludes where
  holders := rfl
  read := by simp [pfsDlgInit]
  write := by simp [pfsDlgInit]
  admitted := each_nil

end DlgSys

/-! ### Matching releases -/

/-- A hold of `a`. -/
def DlgEvent.grants (a : H) : DlgEvent H → Bool
  | .granted h _ => h = a
  | _ => false

/-- The release that ends the hold before `mid` is in `mid`: as many holds of
`a` as releases come before it. -/
def Matched (a : H) (mid : List (DlgEvent H)) : Prop :=
  ∃ u v, mid = u ++ .released a :: v ∧ u.countP (DlgEvent.grants a) = u.count (.released a)

/-- An event leaves a hold of `a` where it is, unless it releases `a` and no
hold of `a` is above. -/
theorem DlgEvent.apply_above {a : H} (own : DlgOwn) {above : List (H × DlgOwn)}
    (below : List (H × DlgOwn)) (x : DlgEvent H) (hx : x = .released a → ∃ g ∈ above, g.1 = a) :
    ∃ above' below', x.apply (above ++ (a, own) :: below) = above' ++ (a, own) :: below' ∧
      above'.countP (fun g => g.1 = a) + [x].count (.released a) =
        above.countP (fun g => g.1 = a) + [x].countP (DlgEvent.grants a) := by
  cases x with
  | granted b o =>
      refine ⟨(b, o) :: above, below, rfl, ?_⟩
      by_cases hb : b = a <;> simp [DlgEvent.grants, hb]
  | released b =>
      have hnot : [DlgEvent.released b].countP (DlgEvent.grants a) = 0 := rfl
      rw [hnot, Nat.add_zero]
      by_cases hmem : ∃ g ∈ above, g.1 = b
      · obtain ⟨g, hg, hgb⟩ := hmem
        obtain ⟨c, l, r, -, hc, rfl, herase⟩ :=
          List.exists_of_eraseP (p := fun g => decide (g.1 = b)) hg (by simpa using hgb)
        obtain rfl : c.1 = b := by simpa using hc
        refine ⟨l ++ r, below, ?_, ?_⟩
        · rw [← herase]
          exact List.eraseP_append_left (by simpa using hgb) _ hg
        · by_cases hca : c.1 = a
          · simp [List.countP_append, hca]
            omega
          · simp [List.countP_append, hca]
      · have hab : a ≠ b := by
          rintro rfl
          exact hmem (hx rfl)
        have hnone : ∀ g ∈ above, ¬ decide (g.1 = b) = true := by
          intro g hg hgb
          exact hmem ⟨g, hg, by simpa using hgb⟩
        refine ⟨above, below.eraseP fun g => g.1 = b, ?_, ?_⟩
        · dsimp only [DlgEvent.apply]
          rw [List.eraseP_append_right _ hnone, List.eraseP_cons_of_neg (by simpa using hab)]
        · simp [Ne.symm hab]
  | inited => exact ⟨above, below, rfl, rfl⟩
  | termed => exact ⟨above, below, rfl, rfl⟩
  | unlocked => exact ⟨above, below, rfl, rfl⟩

/-- A hold that is not matched is out, below the holds of its holder that came
after it. -/
theorem outstanding_of_not_matched {a : H} (own : DlgOwn) (pre : List (DlgEvent H))
    {mid : List (DlgEvent H)} (h : ¬ Matched a mid) :
    ∃ above below, outstanding (pre ++ .granted a own :: mid) = above ++ (a, own) :: below ∧
      above.countP (fun g => g.1 = a) + mid.count (.released a) =
        mid.countP (DlgEvent.grants a) := by
  induction mid using List.reverseRecOn with
  | nil =>
      refine ⟨[], outstanding pre, ?_, rfl⟩
      rw [outstanding_append_singleton]
      rfl
  | append_singleton mid x ih =>
      have hmid : ¬ Matched a mid := by
        rintro ⟨u, v, rfl, hc⟩
        exact h ⟨u, v ++ [x], by simp, hc⟩
      obtain ⟨above, below, hout, hcount⟩ := ih hmid
      have hx : x = .released a → ∃ g ∈ above, g.1 = a := by
        rintro rfl
        have hpos : 0 < above.countP fun g => g.1 = a := by
          by_contra hzero
          exact h ⟨mid, [], rfl, by omega⟩
        simpa using List.countP_pos_iff.mp hpos
      obtain ⟨above', below', happly, hcount'⟩ :=
        DlgEvent.apply_above own below x hx
      refine ⟨above', below', ?_, ?_⟩
      · rw [← List.cons_append, ← List.append_assoc, outstanding_append_singleton, hout,
          happly]
      · rw [List.count_append, List.countP_append]
        omega

/-! ### Results -/

/-- A holder holds for write twice, and another asks for a read hold. -/
def nestedWrites : List (DlgAct ℕ × DlgEnv) :=
  [(.holdW 1, { lock := .granted 1 }), (.holdW 1, {}), (.holdR 2, {})]

/-- The two holds are released, and then the other holder is let in. -/
def releasedWrites : List (DlgAct ℕ × DlgEnv) :=
  [(.holdW 1, { lock := .granted 1 }), (.holdW 1, {}), (.release 1, {}), (.release 1, {}),
    (.holdR 2, {})]

end PaxosSolutions
