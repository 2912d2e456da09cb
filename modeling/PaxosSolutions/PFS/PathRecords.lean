import PaxosSolutions.PFS.Path

/-!
# Records of paths

A path that both files and events refer to must outlive both. As long as the
last event of a path goes only when no session records the file, and the last
record only when no event is left, every record counts the sessions that made
it, and the file goes away with the last of them.
-/
namespace PaxosSolutions
open Lib NWGadget

theorem rootOmitted_idem (n : List Char) : rootOmitted (rootOmitted n) = rootOmitted n := by
  fun_induction rootOmitted n with
  | case1 => rfl
  | case2 => rfl
  | case3 cs hne ih => exact ih
  | case4 cs ih => exact ih
  | case5 cs h1 h2 h3 h4 =>
      unfold rootOmitted
      split <;> simp_all

/-- The paths, as the records `es` of sessions and the joints of events have them. -/
structure PFSPaths.Recorded (es : List Ephemeral) (s : PFSPaths) : Prop where
  fresh : ∀ a p, s.path a = some p → a < s.next
  table : ∀ n a, s.cPath n = some a ↔ ∃ p, s.path a = some p ∧ p.pName = n
  rooted : ∀ a p, s.path a = some p → rootOmitted p.pName = p.pName
  jlive : ∀ j ∈ s.joints, ∃ p, s.path j.jPArg = some p
  elive : ∀ e ∈ es, ∃ a, s.cPath e.eName = some a
  refs : ∀ a p, s.path a = some p → p.pRefCnt = es.countP fun e => e.eName = p.pName

/-- Nothing but the numbers of events changes, and no file is removed. -/
structure PFSPaths.Alike (s t : PFSPaths) : Prop where
  there : ∀ a p, s.path a = some p →
    ∃ q, t.path a = some q ∧ q.pName = p.pName ∧ q.pRefCnt = p.pRefCnt
  back : ∀ a q, t.path a = some q →
    ∃ p, s.path a = some p ∧ q.pName = p.pName ∧ q.pRefCnt = p.pRefCnt
  cPath : t.cPath = s.cPath
  joints : t.joints = s.joints
  ephemerals : t.ephemerals = s.ephemerals
  adaptors : t.adaptors = s.adaptors
  next : t.next = s.next
  out : ∃ o, t.out = s.out ++ o ∧ ∀ n, PathOut.removed n ∉ o

/-- What the sessions have recorded is what the paths count. -/
structure PFSPaths.Kept (s : PFSPaths) : Prop where
  recorded : s.Recorded s.ephemerals
  once : s.ephemerals.Nodup
  eopen : ∀ e ∈ s.ephemerals, e.session ∈ s.adaptors

open PFSPaths

section Changes
variable {s t u : PFSPaths} {a b : ℕ} {p q : PFSPath} {es : List Ephemeral} {e : Ephemeral}
  {who : SessionId} {n : List Char}

theorem pathAt_ok (h : s.path a = some p) : s.pathAt a = .ok p := by
  unfold PFSPaths.pathAt
  rw [h]

theorem PFSPaths.Alike.refl : Alike s s :=
  ⟨fun _ p h => ⟨p, h, rfl, rfl⟩, fun _ p h => ⟨p, h, rfl, rfl⟩, rfl, rfl, rfl, rfl, rfl,
    [], (List.append_nil _).symm, by simp⟩

theorem PFSPaths.Alike.trans (h : Alike s t) (h' : Alike t u) : Alike s u := by
  constructor
  · intro a p hp
    obtain ⟨q, hq, hqn, hqr⟩ := h.there a p hp
    obtain ⟨r, hr, hrn, hrr⟩ := h'.there a q hq
    exact ⟨r, hr, hrn.trans hqn, hrr.trans hqr⟩
  · intro a r hr
    obtain ⟨q, hq, hrn, hrr⟩ := h'.back a r hr
    obtain ⟨p, hp, hqn, hqr⟩ := h.back a q hq
    exact ⟨p, hp, hrn.trans hqn, hrr.trans hqr⟩
  · exact h'.cPath.trans h.cPath
  · exact h'.joints.trans h.joints
  · exact h'.ephemerals.trans h.ephemerals
  · exact h'.adaptors.trans h.adaptors
  · exact h'.next.trans h.next
  · obtain ⟨o, ho, hn⟩ := h.out
    obtain ⟨o', ho', hn'⟩ := h'.out
    refine ⟨o ++ o', by rw [ho', ho, List.append_assoc], ?_⟩
    intro n hm
    rcases List.mem_append.mp hm with hm | hm
    · exact hn n hm
    · exact hn' n hm

theorem PFSPaths.Alike.send {o : PathOut} (ho : ∀ n, o ≠ .removed n) : Alike s (s.send o) :=
  ⟨fun _ p h => ⟨p, h, rfl, rfl⟩, fun _ p h => ⟨p, h, rfl, rfl⟩, rfl, rfl, rfl, rfl, rfl,
    [o], rfl, fun n hm => ho n (List.mem_singleton.mp hm).symm⟩

theorem PFSPaths.Recorded.alike (hs : s.Recorded es) (h : Alike s t) : t.Recorded es := by
  constructor
  · intro a q hq
    obtain ⟨p, hp, -, -⟩ := h.back a q hq
    rw [h.next]
    exact hs.fresh a p hp
  · intro n a
    rw [h.cPath, hs.table]
    constructor
    · rintro ⟨p, hp, hn⟩
      obtain ⟨q, hq, hqn, -⟩ := h.there a p hp
      exact ⟨q, hq, hqn.trans hn⟩
    · rintro ⟨q, hq, hn⟩
      obtain ⟨p, hp, hqn, -⟩ := h.back a q hq
      exact ⟨p, hp, hqn.symm.trans hn⟩
  · intro a q hq
    obtain ⟨p, hp, hqn, -⟩ := h.back a q hq
    rw [hqn]
    exact hs.rooted a p hp
  · intro j hj
    rw [h.joints] at hj
    obtain ⟨p, hp⟩ := hs.jlive j hj
    obtain ⟨q, hq, -, -⟩ := h.there _ p hp
    exact ⟨q, hq⟩
  · intro e he
    rw [h.cPath]
    exact hs.elive e he
  · intro a q hq
    obtain ⟨p, hp, hqn, hqr⟩ := h.back a q hq
    rw [hqn, hqr]
    exact hs.refs a p hp

/-- One path a name. -/
theorem PFSPaths.Recorded.unique (hs : s.Recorded es) (hp : s.path a = some p)
    (hq : s.path b = some q) (h : p.pName = q.pName) : a = b := by
  have ha := (hs.table p.pName a).mpr ⟨p, hp, rfl⟩
  have hb := (hs.table p.pName b).mpr ⟨q, hq, h.symm⟩
  exact Option.some.inj (ha.symm.trans hb)

/-- The path that a record or an event finds by name. -/
theorem PFSPaths.Recorded.get (hs : s.Recorded es) (h : s.pathGet n = some a) :
    ∃ p, s.path a = some p ∧ p.pName = rootOmitted n := (hs.table _ a).mp h

theorem updateDirAt_ok (hs : s.Recorded es) (n : List Char) (edMode : PFSDirEntryMode)
    (pEntry : List Char) : ∃ t, pfsUpdateDirAt n edMode pEntry s = .ok t ∧ Alike s t := by
  unfold pfsUpdateDirAt
  cases hg : s.pathGet n with
  | none => exact ⟨s, rfl, .refl⟩
  | some a =>
      obtain ⟨p, hp, -⟩ := hs.get hg
      simp only [bind, Except.bind]
      rw [pathAt_ok hp]
      refine ⟨_, rfl, ?_, ?_, rfl, rfl, rfl, rfl, rfl, _, rfl, ?_⟩
      · intro b q hq
        change ∃ r, Function.update s.path a _ b = some r ∧ _
        rw [Function.update_apply]
        split_ifs with hb
        · subst hb
          cases hp.symm.trans hq
          exact ⟨_, rfl, rfl, rfl⟩
        · exact ⟨q, hq, rfl, rfl⟩
      · intro b q hq
        change Function.update s.path a _ b = some q at hq
        rw [Function.update_apply] at hq
        split_ifs at hq with hb
        · subst hb
          cases hq
          exact ⟨p, hp, rfl, rfl⟩
        · exact ⟨q, hq, rfl, rfl⟩
      · intro n hm
        obtain ⟨j, -, hj⟩ := List.mem_map.mp hm
        cases hj

theorem updateDir_ok (hs : s.Recorded es) (n : List Char) (edMode : PFSDirEntryMode) :
    ∃ t, pfsUpdateDir n edMode s = .ok t ∧ Alike s t :=
  updateDirAt_ok hs (dirname n) edMode (basename n)

/-- The path at `a` changes, and its record with it. -/
theorem setPath_recorded {es' : List Ephemeral} (hs : s.Recorded es) (hp : s.path a = some p)
    (hname : q.pName = p.pName) (helive : ∀ e ∈ es', e ∈ es ∨ e.eName = p.pName)
    (hrefs : q.pRefCnt = es'.countP fun e => e.eName = p.pName)
    (hothers : ∀ n, n ≠ p.pName → es'.countP (fun e => e.eName = n) =
      es.countP fun e => e.eName = n) : (s.setPath a q).Recorded es' := by
  have hpath : ∀ b r, (s.setPath a q).path b = some r →
      b = a ∧ r = q ∨ b ≠ a ∧ s.path b = some r := by
    intro b r hr
    simp only [PFSPaths.setPath, Function.update_apply] at hr
    split_ifs at hr with hb
    · cases hr
      exact .inl ⟨hb, rfl⟩
    · exact .inr ⟨hb, hr⟩
  constructor
  · intro b r hr
    rcases hpath b r hr with ⟨rfl, rfl⟩ | ⟨-, hr⟩
    · exact hs.fresh b p hp
    · exact hs.fresh b r hr
  · intro n b
    change s.cPath n = some b ↔ _
    rw [hs.table]
    constructor
    · rintro ⟨r, hr, hn⟩
      by_cases hb : b = a
      · subst hb
        cases hp.symm.trans hr
        exact ⟨q, by simp [PFSPaths.setPath], hname.trans hn⟩
      · exact ⟨r, by simpa [PFSPaths.setPath, hb] using hr, hn⟩
    · rintro ⟨r, hr, hn⟩
      rcases hpath b r hr with ⟨rfl, rfl⟩ | ⟨-, hr⟩
      · exact ⟨p, hp, hname.symm.trans hn⟩
      · exact ⟨r, hr, hn⟩
  · intro b r hr
    rcases hpath b r hr with ⟨rfl, rfl⟩ | ⟨-, hr⟩
    · rw [hname]
      exact hs.rooted b p hp
    · exact hs.rooted b r hr
  · intro j hj
    obtain ⟨r, hr⟩ := hs.jlive j hj
    simp only [PFSPaths.setPath, Function.update_apply]
    split_ifs
    · exact ⟨q, rfl⟩
    · exact ⟨r, hr⟩
  · intro e he
    rcases helive e he with he | he
    · exact hs.elive e he
    · rw [he]
      exact ⟨a, (hs.table _ a).mpr ⟨p, hp, rfl⟩⟩
  · intro b r hr
    rcases hpath b r hr with ⟨rfl, rfl⟩ | ⟨hb, hr⟩
    · rw [hname]
      exact hrefs
    · have hne : r.pName ≠ p.pName := fun h => hb (hs.unique hr hp h)
      rw [hothers _ hne]
      exact hs.refs b r hr

/-- A path that nothing refers to is gone. -/
theorem pathFree_recorded (hs : s.Recorded es) (hp : s.path a = some p) (href : p.pRefCnt = 0)
    (hev : s.events a = []) :
    s.pathFree p.pName = { s with
      path := Function.update s.path a none
      cPath := Function.update s.cPath p.pName none } ∧ (s.pathFree p.pName).Recorded es := by
  have hget : s.pathGet p.pName = some a := by
    unfold PFSPaths.pathGet
    rw [hs.rooted a p hp]
    exact (hs.table _ a).mpr ⟨p, hp, rfl⟩
  have heq : s.pathFree p.pName = { s with
      path := Function.update s.path a none
      cPath := Function.update s.cPath p.pName none } := by
    unfold PFSPaths.pathFree
    rw [hget, hs.rooted a p hp]
  have hpath : ∀ b r, Function.update s.path a none b = some r → b ≠ a ∧ s.path b = some r := by
    intro b r hr
    rw [Function.update_apply] at hr
    split_ifs at hr with hb
    exact ⟨hb, hr⟩
  refine ⟨heq, ?_⟩
  rw [heq]
  constructor
  · intro b r hr
    exact hs.fresh b r (hpath b r hr).2
  · intro n b
    change Function.update s.cPath p.pName none n = some b ↔ _
    rw [Function.update_apply]
    split_ifs with hn
    · constructor
      · intro h
        cases h
      · rintro ⟨r, hr, hrn⟩
        obtain ⟨hb, hr⟩ := hpath b r hr
        exact absurd (hs.unique hr hp (hrn.trans hn)) hb
    · rw [hs.table]
      constructor
      · rintro ⟨r, hr, hrn⟩
        have hb : b ≠ a := by
          intro hb
          rw [hb] at hr
          cases hp.symm.trans hr
          exact hn hrn.symm
        exact ⟨r, (Function.update_of_ne hb _ _).trans hr, hrn⟩
      · rintro ⟨r, hr, hrn⟩
        exact ⟨r, (hpath b r hr).2, hrn⟩
  · intro b r hr
    exact hs.rooted b r (hpath b r hr).2
  · intro j hj
    obtain ⟨r, hr⟩ := hs.jlive j hj
    have hne : j.jPArg ≠ a := by
      intro h
      have hmem : j ∈ s.events a := List.mem_filter.mpr ⟨hj, by simpa using h⟩
      rw [hev] at hmem
      cases hmem
    exact ⟨r, (Function.update_of_ne hne _ _).trans hr⟩
  · intro e he
    obtain ⟨b, hb⟩ := hs.elive e he
    have hne : e.eName ≠ p.pName := by
      have hzero : es.countP (fun e => e.eName = p.pName) = 0 := by
        have h := hs.refs a p hp
        omega
      rw [List.countP_eq_zero] at hzero
      simpa using hzero e he
    exact ⟨b, (Function.update_of_ne hne _ _).trans hb⟩
  · intro b r hr
    exact hs.refs b r (hpath b r hr).2

/-- `c_Path` after `PATH_ALLOC`, or as it was. -/
theorem pathAlloc_recorded (hs : s.Recorded es) (n : List Char) :
    (s.pathAlloc n).2.Recorded es ∧
      (∃ p, (s.pathAlloc n).2.path (s.pathAlloc n).1 = some p ∧ p.pName = rootOmitted n) ∧
      (s.pathAlloc n).2.joints = s.joints ∧ (s.pathAlloc n).2.ephemerals = s.ephemerals ∧
      (s.pathAlloc n).2.adaptors = s.adaptors ∧ (s.pathAlloc n).2.out = s.out := by
  unfold PFSPaths.pathAlloc
  cases hg : s.pathGet n with
  | some a => exact ⟨hs, hs.get hg, rfl, rfl, rfl, rfl⟩
  | none =>
      have hold : ∀ b r, s.path b = some r →
          Function.update s.path s.next (some { pName := rootOmitted n }) b = some r := by
        intro b r hr
        have hb := hs.fresh b r hr
        rw [Function.update_of_ne (by omega)]
        exact hr
      have hpath : ∀ b r, Function.update s.path s.next (some { pName := rootOmitted n }) b =
          some r → b = s.next ∧ r = { pName := rootOmitted n } ∨ s.path b = some r := by
        intro b r hr
        rw [Function.update_apply] at hr
        split_ifs at hr with hb
        · cases hr
          exact .inl ⟨hb, rfl⟩
        · exact .inr hr
      have hnone : ∀ e ∈ es, e.eName ≠ rootOmitted n := by
        intro e he hn
        obtain ⟨a, ha⟩ := hs.elive e he
        rw [hn] at ha
        change s.cPath (rootOmitted n) = none at hg
        rw [hg] at ha
        cases ha
      refine ⟨?_, ⟨{ pName := rootOmitted n }, Function.update_self _ _ _, rfl⟩, rfl, rfl, rfl, rfl⟩
      constructor
      · intro b r hr
        rcases hpath b r hr with ⟨rfl, -⟩ | hr
        · exact Nat.lt_succ_self _
        · exact Nat.lt_succ_of_lt (hs.fresh b r hr)
      · intro m b
        change Function.update s.cPath (rootOmitted n) (some s.next) m = some b ↔ _
        rw [Function.update_apply]
        split_ifs with hm
        · constructor
          · intro h
            cases h
            exact ⟨{ pName := rootOmitted n }, Function.update_self _ _ _, hm.symm⟩
          · rintro ⟨r, hr, hrm⟩
            rcases hpath b r hr with ⟨rfl, -⟩ | hr
            · rfl
            · have hc := (hs.table m b).mpr ⟨r, hr, hrm⟩
              change s.cPath (rootOmitted n) = none at hg
              rw [hm, hg] at hc
              cases hc
        · rw [hs.table]
          constructor
          · rintro ⟨r, hr, hrm⟩
            exact ⟨r, hold b r hr, hrm⟩
          · rintro ⟨r, hr, hrm⟩
            rcases hpath b r hr with ⟨-, rfl⟩ | hr
            · exact absurd hrm.symm hm
            · exact ⟨r, hr, hrm⟩
      · intro b r hr
        rcases hpath b r hr with ⟨-, rfl⟩ | hr
        · exact rootOmitted_idem n
        · exact hs.rooted b r hr
      · intro j hj
        obtain ⟨r, hr⟩ := hs.jlive j hj
        exact ⟨r, hold _ r hr⟩
      · intro e he
        obtain ⟨b, hb⟩ := hs.elive e he
        exact ⟨b, (Function.update_of_ne (hnone e he) _ _).trans hb⟩
      · intro b r hr
        rcases hpath b r hr with ⟨-, rfl⟩ | hr
        · have hzero : es.countP (fun e => e.eName = rootOmitted n) = 0 := by
            rw [List.countP_eq_zero]
            intro e he
            simpa using hnone e he
          change (0 : ℤ) = _
          rw [hzero]
          rfl
        · exact hs.refs b r hr

theorem PFSPaths.Kept.alike (hs : s.Kept) (h : Alike s t) : t.Kept := by
  constructor
  · rw [h.ephemerals]
    exact hs.recorded.alike h
  · rw [h.ephemerals]
    exact hs.once
  · rw [h.ephemerals, h.adaptors]
    exact hs.eopen

/-- Other events are waited for, of paths that are there. -/
theorem PFSPaths.Recorded.joints (hs : s.Recorded es) {js : List PathJoint}
    (h : ∀ j ∈ js, ∃ p, s.path j.jPArg = some p) :
    ({ s with joints := js } : PFSPaths).Recorded es :=
  ⟨hs.fresh, hs.table, hs.rooted, h, hs.elive, hs.refs⟩

/-! ### Requests -/

/-- A session records a file. -/
theorem ephemeral_ok (hs : s.Kept) (hwho : who ∈ s.adaptors) (n : List Char) :
    ∃ t, pfsEphemeral who n s = .ok t ∧ t.Kept ∧ t.adaptors = s.adaptors ∧ t.out = s.out := by
  unfold pfsEphemeral
  rw [if_neg (not_not.mpr hwho)]
  by_cases hrec : ⟨who, rootOmitted n⟩ ∈ s.ephemerals
  · rw [if_pos hrec]
    exact ⟨s, rfl, hs, rfl, rfl⟩
  · rw [if_neg hrec]
    obtain ⟨r, hr⟩ : ∃ r, r = ({ s with
      ephemerals := s.ephemerals ++ [⟨who, rootOmitted n⟩] } : PFSPaths) := ⟨_, rfl⟩
    have hrr : r.Recorded s.ephemerals := by
      rw [hr]
      exact ⟨hs.recorded.fresh, hs.recorded.table, hs.recorded.rooted, hs.recorded.jlive,
        hs.recorded.elive, hs.recorded.refs⟩
    obtain ⟨hu, ⟨p, hp, hpn⟩, -, he, ha, ho⟩ := pathAlloc_recorded hrr n
    rw [← hr]
    rcases hau : r.pathAlloc n with ⟨a, u⟩
    rw [hau] at hu hp he ha ho
    simp only at hu hp he ha ho
    have heph : u.ephemerals = s.ephemerals ++ [⟨who, rootOmitted n⟩] := by
      rw [he, hr]
    have hadp : u.adaptors = s.adaptors := by
      rw [ha, hr]
    refine ⟨u.setPath a { p with pRefCnt := p.pRefCnt + 1, pEphemeral := true }, ?_, ?_, hadp, ?_⟩
    · simp only [bind, Except.bind, hau]
      rw [pathAt_ok hp]
    · constructor
      · change (u.setPath a _).Recorded u.ephemerals
        rw [heph]
        apply setPath_recorded hu hp
        · rfl
        · intro e he
          rcases List.mem_append.mp he with he | he
          · exact .inl he
          · rw [List.mem_singleton.mp he]
            exact .inr hpn.symm
        · change p.pRefCnt + 1 = _
          rw [hu.refs a p hp, List.countP_append]
          simp [hpn]
        · intro m hm
          rw [List.countP_append]
          have hne : rootOmitted n ≠ m := by
            rw [← hpn]
            exact hm.symm
          simp [hne]
      · change u.ephemerals.Nodup
        rw [heph, List.nodup_append]
        refine ⟨hs.once, List.nodup_singleton _, ?_⟩
        intro e he f hf
        rw [List.mem_singleton.mp hf]
        exact ne_of_mem_of_not_mem he hrec
      · intro e he
        change e ∈ u.ephemerals at he
        change e.session ∈ u.adaptors
        rw [heph] at he
        rw [hadp]
        rcases List.mem_append.mp he with he | he
        · exact hs.eopen e he
        · rw [List.mem_singleton.mp he]
          exact hwho
    · change u.out = s.out
      rw [ho, hr]

/-- The joint of an event is freed, the last of a path if no session records it. -/
theorem pathEventFree_ok {j : PathJoint} (hs : s.Recorded es) (hj : j ∈ s.joints)
    (hlast : (s.joints.erase j).filter (fun k => k.jPArg = j.jPArg) = [] →
      ∀ p, s.path j.jPArg = some p → p.pRefCnt = 0) :
    ∃ t, pfsPathEventFree j s = .ok t ∧ t.Recorded es ∧ t.joints = s.joints.erase j ∧
      t.ephemerals = s.ephemerals ∧ t.adaptors = s.adaptors ∧ t.out = s.out ∧
      ∀ a p, t.path a = some p → s.path a = some p := by
  obtain ⟨p, hp⟩ := hs.jlive j hj
  obtain ⟨u, hu⟩ : ∃ u, u = ({ s with joints := s.joints.erase j } : PFSPaths) := ⟨_, rfl⟩
  have hrec : u.Recorded es := by
    rw [hu]
    exact hs.joints fun k hk => hs.jlive k (List.mem_of_mem_erase hk)
  have hup : u.path j.jPArg = some p := by
    rw [hu]
    exact hp
  have hfree : pfsPathEventFree j s =
      if u.events j.jPArg = [] then .ok (u.pathFree p.pName) else .ok u := by
    unfold pfsPathEventFree pfsPathGarbage
    rw [← hu, pathAt_ok hup]
    rfl
  rw [hfree]
  by_cases hnil : u.events j.jPArg = []
  · rw [if_pos hnil]
    have href : p.pRefCnt = 0 := by
      apply hlast _ p hp
      rw [hu] at hnil
      exact hnil
    obtain ⟨heq, hrec'⟩ := pathFree_recorded hrec hup href hnil
    refine ⟨_, rfl, hrec', ?_⟩
    rw [heq, hu]
    refine ⟨rfl, rfl, rfl, rfl, ?_⟩
    intro b q hq
    change Function.update s.path j.jPArg none b = some q at hq
    rw [Function.update_apply] at hq
    split_ifs at hq
    exact hq
  · rw [if_neg hnil]
    refine ⟨u, rfl, hrec, ?_⟩
    rw [hu]
    exact ⟨rfl, rfl, rfl, rfl, fun _ _ h => h⟩

/-- The file of a path that nobody records is removed, and the path with it. -/
theorem ephemeralRemove_ok (hs : s.Recorded es) (hp : s.path a = some p) (href : p.pRefCnt = 0)
    (hev : s.events a = []) (ret : ℤ) :
    ∃ t, pfsEphemeralRemove a ret s = .ok t ∧ t.Recorded es ∧ t.joints = s.joints ∧
      t.ephemerals = s.ephemerals ∧ t.adaptors = s.adaptors ∧
      (∀ b q, t.path b = some q → ∃ r, s.path b = some r ∧ q.pName = r.pName) ∧
      ∃ o, t.out = s.out ++ o ∧ ∀ n, PathOut.removed n ∈ o ↔ n = p.pName := by
  obtain ⟨u, hu⟩ : ∃ u, u = (s.send (.backup p.pName)).send (.removed p.pName) := ⟨_, rfl⟩
  have hru : u.Recorded es := by
    rw [hu]
    exact ⟨hs.fresh, hs.table, hs.rooted, hs.jlive, hs.elive, hs.refs⟩
  obtain ⟨v, hv, hal⟩ : ∃ v, (if ret = 0 then pfsUpdateDir p.pName .delete u else .ok u) = .ok v ∧
      Alike u v := by
    split_ifs
    · exact updateDir_ok hru _ _
    · exact ⟨u, rfl, .refl⟩
  obtain ⟨q, hq, hqn, hqr⟩ := hal.there a p (by rw [hu]; exact hp)
  have hevv : v.events a = [] := by
    unfold PFSPaths.events
    rw [hal.joints, hu]
    exact hev
  obtain ⟨heq, hrec⟩ := pathFree_recorded (hru.alike hal) hq (hqr.trans href) hevv
  rw [hqn] at heq hrec
  obtain ⟨o, ho, hno⟩ := hal.out
  refine ⟨v.pathFree p.pName, ?_, hrec, ?_⟩
  · unfold pfsEphemeralRemove
    simp only [bind, Except.bind]
    rw [pathAt_ok hp]
    simp only
    rw [← hu]
    split_ifs at hv ⊢ with hret
    · rw [hv]
    · cases hv
      rfl
  · rw [heq]
    refine ⟨?_, ?_, ?_, ?_, [.backup p.pName, .removed p.pName] ++ o, ?_, ?_⟩
    · change v.joints = _
      rw [hal.joints, hu]
      rfl
    · change v.ephemerals = _
      rw [hal.ephemerals, hu]
      rfl
    · change v.adaptors = _
      rw [hal.adaptors, hu]
      rfl
    · intro b r hr
      change Function.update v.path a none b = some r at hr
      rw [Function.update_apply] at hr
      split_ifs at hr
      obtain ⟨r', hr', hrn, -⟩ := hal.back b r hr
      rw [hu] at hr'
      exact ⟨r', hr', hrn⟩
    · change v.out = _
      rw [ho, hu]
      unfold PFSPaths.send
      simp
    · intro n
      simp [hno n]

/-- A session records a file once, and it is the only one if no record is left
without its own. -/
theorem countP_erase_record (hn : es.Nodup) (he : e ∈ es) :
    (es.erase e).countP (fun f => f.eName = e.eName) + 1 = es.countP (fun f => f.eName = e.eName) ∧
      ((es.erase e).countP (fun f => f.eName = e.eName) = 0 ↔
        ∀ f ∈ es, f.eName = e.eName → f.session = e.session) := by
  constructor
  · have hperm := List.perm_cons_erase he
    rw [hperm.countP_eq, List.countP_cons]
    simp
  · rw [List.countP_eq_zero]
    constructor
    · intro h f hf hfn
      by_cases hfe : f = e
      · rw [hfe]
      · exact absurd hfn (by simpa using h f ((List.mem_erase_of_ne hfe).mpr hf))
    · intro h f hf
      obtain ⟨hfe, hfs⟩ := (hn.mem_erase_iff).mp hf
      simp only [decide_eq_true_eq]
      intro hfn
      apply hfe
      cases f
      cases e
      simp only [Ephemeral.mk.injEq]
      exact ⟨h _ hfs hfn, hfn⟩

/-- The closing session's records go, and the files that are recorded no more. -/
theorem ephemeralClose_ok (ret : List Char → ℤ) (ns : List (List Char))
    (hs : s.Recorded s.ephemerals) (hn : s.ephemerals.Nodup) (hns : ns.Nodup)
    (hmem : ∀ n ∈ ns, ⟨who, n⟩ ∈ s.ephemerals)
    (hlast : ∀ n ∈ ns, (∀ e ∈ s.ephemerals, e.eName = n → e.session = who) →
      ∀ a, s.cPath n = some a → s.events a = []) :
    ∃ t, pfsEphemeralClose who ret ns s = .ok t ∧ t.Recorded t.ephemerals ∧
      t.joints = s.joints ∧ t.adaptors = s.adaptors ∧
      t.ephemerals = s.ephemerals.filter (fun e => ¬ (e.session = who ∧ e.eName ∈ ns)) ∧
      (∀ b q, t.path b = some q → ∃ r, s.path b = some r ∧ q.pName = r.pName) ∧
      ∃ o, t.out = s.out ++ o ∧ ∀ n, PathOut.removed n ∈ o ↔
        n ∈ ns ∧ ∀ e ∈ s.ephemerals, e.eName = n → e.session = who := by
  induction ns generalizing s with
  | nil =>
      refine ⟨s, rfl, hs, rfl, rfl, ?_, fun _ q h => ⟨q, h, rfl⟩, [], (List.append_nil _).symm, ?_⟩
      · symm
        rw [List.filter_eq_self]
        simp
      · simp
  | cons n ns ih =>
      obtain ⟨hnn, hnd⟩ := List.nodup_cons.mp hns
      have he := hmem n List.mem_cons_self
      obtain ⟨a, ha⟩ := hs.elive _ he
      obtain ⟨p, hp, rfl⟩ := (hs.table _ a).mp ha
      have hroot := hs.rooted a p hp
      have hget : s.pathGet p.pName = some a := by
        unfold PFSPaths.pathGet
        rw [hroot]
        exact ha
      obtain ⟨hcount, hsole⟩ := countP_erase_record hn he
      simp only at hcount hsole
      have href := hs.refs a p hp
      -- the records without this one
      have hset : (s.setPath a { p with pRefCnt := p.pRefCnt - 1 }).Recorded
          (s.ephemerals.erase ⟨who, p.pName⟩) := by
        apply setPath_recorded hs hp
        · rfl
        · exact fun e he => .inl (List.mem_of_mem_erase he)
        · change p.pRefCnt - 1 = _
          rw [href, ← hcount]
          simp
        · intro m hm
          have hperm := List.perm_cons_erase he
          rw [hperm.countP_eq, List.countP_cons]
          simp [hm.symm]
      obtain ⟨u, hu, hru, hju, heu, hau, hpu, o, ho, hmo⟩ : ∃ u,
          (if p.pRefCnt - 1 = 0 then pfsEphemeralRemove a (ret p.pName)
              (s.setPath a { p with pRefCnt := p.pRefCnt - 1 })
            else .ok (s.setPath a { p with pRefCnt := p.pRefCnt - 1 })) = .ok u ∧
          u.Recorded (s.ephemerals.erase ⟨who, p.pName⟩) ∧ u.joints = s.joints ∧
          u.ephemerals = s.ephemerals ∧ u.adaptors = s.adaptors ∧
          (∀ b q, u.path b = some q → ∃ r, s.path b = some r ∧ q.pName = r.pName) ∧
          ∃ o, u.out = s.out ++ o ∧ ∀ m, PathOut.removed m ∈ o ↔
            m = p.pName ∧ ∀ e ∈ s.ephemerals, e.eName = m → e.session = who := by
        have hback : ∀ b q, (s.setPath a { p with pRefCnt := p.pRefCnt - 1 }).path b = some q →
            ∃ r, s.path b = some r ∧ q.pName = r.pName := by
          intro b q hq
          simp only [PFSPaths.setPath, Function.update_apply] at hq
          split_ifs at hq with hb
          · cases hq
            exact ⟨p, hb ▸ hp, rfl⟩
          · exact ⟨q, hq, rfl⟩
        by_cases hzero : p.pRefCnt - 1 = 0
        · rw [if_pos hzero]
          have hnone : (s.ephemerals.erase ⟨who, p.pName⟩).countP
              (fun f => f.eName = p.pName) = 0 := by omega
          obtain ⟨u, hu, hru, hju, heu, hau, hpu, o, ho, hmo⟩ :=
            ephemeralRemove_ok hset (Function.update_self _ _ _) hzero
              (hlast _ List.mem_cons_self (hsole.mp hnone) a ha) (ret p.pName)
          refine ⟨u, hu, hru, hju, heu, hau, ?_, o, ho, ?_⟩
          · intro b q hq
            obtain ⟨r, hr, hqr⟩ := hpu b q hq
            obtain ⟨r', hr', hrr⟩ := hback b r hr
            exact ⟨r', hr', hqr.trans hrr⟩
          · intro m
            rw [hmo]
            constructor
            · rintro rfl
              exact ⟨rfl, hsole.mp hnone⟩
            · exact And.left
        · rw [if_neg hzero]
          refine ⟨_, rfl, hset, rfl, rfl, rfl, hback, [], (List.append_nil _).symm, ?_⟩
          intro m
          simp only [List.not_mem_nil, false_iff, not_and]
          rintro rfl hall
          have h := hsole.mpr hall
          omega
      obtain ⟨v, hv⟩ : ∃ v, v = ({ u with
        ephemerals := u.ephemerals.erase ⟨who, rootOmitted p.pName⟩ } : PFSPaths) := ⟨_, rfl⟩
      have hve : v.ephemerals = s.ephemerals.erase ⟨who, p.pName⟩ := by
        rw [hv, hroot, heu]
      have hrv : v.Recorded v.ephemerals := by
        rw [hve, hv]
        exact ⟨hru.fresh, hru.table, hru.rooted, hru.jlive, hru.elive, hru.refs⟩
      have hne : ∀ n ∈ ns, n ≠ p.pName := fun n hm h => hnn (h ▸ hm)
      have hrest : ∀ n, n ≠ p.pName → ∀ e : Ephemeral, e.eName = n →
          (e ∈ v.ephemerals ↔ e ∈ s.ephemerals) := by
        intro n hm e hen
        rw [hve, List.mem_erase_of_ne]
        intro h
        rw [h] at hen
        exact hm hen.symm
      have hsame : ∀ n, n ≠ p.pName → ((∀ e ∈ v.ephemerals, e.eName = n → e.session = who) ↔
          ∀ e ∈ s.ephemerals, e.eName = n → e.session = who) := by
        intro n hm
        constructor
        · intro h e hes hen
          exact h e ((hrest n hm e hen).mpr hes) hen
        · intro h e hev hen
          exact h e ((hrest n hm e hen).mp hev) hen
      obtain ⟨t, ht, hrt, hjt, hat, het, hpt, o', ho', hmo'⟩ := ih hrv (hve ▸ hn.erase _) hnd
        (by
          intro m hm
          exact (hrest m (hne m hm) _ rfl).mpr (hmem m (List.mem_cons_of_mem _ hm)))
        (by
          intro m hm hall b hb
          obtain ⟨q, hq, hqn⟩ := (hrv.table m b).mp hb
          obtain ⟨r, hr, hqr⟩ := hpu b q (by rw [hv] at hq; exact hq)
          have hev := hlast m (List.mem_cons_of_mem _ hm) ((hsame m (hne m hm)).mp hall) b
            ((hs.table m b).mpr ⟨r, hr, hqr.symm.trans hqn⟩)
          unfold PFSPaths.events at hev ⊢
          rw [hv]
          change u.joints.filter _ = []
          rw [hju]
          exact hev)
      refine ⟨t, ?_, hrt, ?_, ?_, ?_, ?_, o ++ o', ?_, ?_⟩
      · unfold pfsEphemeralClose
        simp only [bind, Except.bind, hget]
        rw [pathAt_ok hp]
        simp only
        split_ifs at hu ⊢ with hzero
        · rw [hu]
          rw [hv] at ht
          exact ht
        · cases hu
          rw [hv] at ht
          exact ht
      · rw [hjt, hv]
        exact hju
      · rw [hat, hv]
        exact hau
      · rw [het, hve, hn.erase_eq_filter, List.filter_filter]
        apply List.filter_congr
        intro e _
        have heq : (e != ⟨who, p.pName⟩) = decide (¬ (e.session = who ∧ e.eName = p.pName)) := by
          rw [Bool.eq_iff_iff, bne_iff_ne, decide_eq_true_iff, not_iff_not]
          cases e
          simp
        rw [heq]
        by_cases h1 : e.session = who <;> by_cases h2 : e.eName = p.pName <;> simp [h1, h2]
      · intro b q hq
        obtain ⟨r, hr, hqr⟩ := hpt b q hq
        obtain ⟨r', hr', hrr⟩ := hpu b r (by rw [hv] at hr; exact hr)
        exact ⟨r', hr', hqr.trans hrr⟩
      · rw [ho', hv]
        change u.out ++ o' = _
        rw [ho, List.append_assoc]
      · intro m
        rw [List.mem_append, hmo, hmo', List.mem_cons]
        constructor
        · rintro (⟨hm, hall⟩ | ⟨hm, hall⟩)
          · exact ⟨.inl hm, hall⟩
          · exact ⟨.inr hm, (hsame m (hne m hm)).mp hall⟩
        · rintro ⟨hm | hm, hall⟩
          · exact .inl ⟨hm, hall⟩
          · exact .inr ⟨hm, (hsame m (hne m hm)).mpr hall⟩

/-- The closing session's events go. -/
theorem pathEventFreeAll_ok (js : List PathJoint) (hs : s.Recorded es)
    (hjs : js.Subperm s.joints) (hwho : ∀ j ∈ js, j.jAdaptor = who)
    (hlast : ∀ j ∈ js, (∃ k ∈ s.joints, k.jPArg = j.jPArg ∧ k.jAdaptor ≠ who) ∨
      ∀ p, s.path j.jPArg = some p → p.pRefCnt = 0) :
    ∃ t, pfsPathEventFreeAll js s = .ok t ∧ t.Recorded es ∧ t.ephemerals = s.ephemerals ∧
      t.adaptors = s.adaptors ∧ t.out = s.out := by
  induction js generalizing s with
  | nil => exact ⟨s, rfl, hs, rfl, rfl, rfl⟩
  | cons j js ih =>
      obtain ⟨u, hu, hru, hju, heu, hau, hou, hpu⟩ :=
        pathEventFree_ok hs (hjs.subset List.mem_cons_self) (by
          intro hnil
          apply (hlast j List.mem_cons_self).resolve_left
          rintro ⟨k, hk, hkj, hkw⟩
          have hne : k ≠ j := by
            rintro rfl
            exact hkw (hwho k List.mem_cons_self)
          have hmem : k ∈ (s.joints.erase j).filter fun i => i.jPArg = j.jPArg :=
            List.mem_filter.mpr ⟨(List.mem_erase_of_ne hne).mpr hk, by simpa using hkj⟩
          rw [hnil] at hmem
          cases hmem)
      obtain ⟨t, ht, hrt, het, hat, hot⟩ := ih hru
        (by
          rw [hju]
          have h := hjs.erase j
          rwa [List.erase_cons_head] at h)
        (fun k hk => hwho k (List.mem_cons_of_mem _ hk))
        (by
          intro i hi
          apply (hlast i (List.mem_cons_of_mem _ hi)).imp
          · rintro ⟨k, hk, hki, hkw⟩
            refine ⟨k, ?_, hki, hkw⟩
            rw [hju]
            apply (List.mem_erase_of_ne _).mpr hk
            rintro rfl
            exact hkw (hwho k List.mem_cons_self)
          · intro h p hp
            exact h p (hpu _ p hp))
      refine ⟨t, ?_, hrt, het.trans heu, hat.trans hau, hot.trans hou⟩
      unfold pfsPathEventFreeAll
      rw [hu]
      exact ht

theorem pathClose_ok (hs : s.Kept) (ret : List Char → ℤ)
    (hrec : ∀ e ∈ s.ephemerals, e.session = who →
      (∀ f ∈ s.ephemerals, f.eName = e.eName → f.session = who) →
        ∀ a, s.cPath e.eName = some a → s.events a = [])
    (hev : ∀ j ∈ s.joints, j.jAdaptor = who →
      (∃ k ∈ s.joints, k.jPArg = j.jPArg ∧ k.jAdaptor ≠ who) ∨
        ∀ p, s.path j.jPArg = some p → p.pRefCnt = 0) :
    ∃ t, pfsPathClose who ret s = .ok t ∧ t.Kept ∧ ∃ o, t.out = s.out ++ o ∧
      ∀ n, PathOut.removed n ∈ o ↔ ⟨who, n⟩ ∈ s.ephemerals ∧
        ∀ e ∈ s.ephemerals, e.eName = n → e.session = who := by
  unfold pfsPathClose
  by_cases hwho : who ∈ s.adaptors
  · rw [if_neg (not_not.mpr hwho)]
    have hmem : ∀ n, n ∈ (s.ephemerals.filter fun e => e.session = who).map (·.eName) ↔
        ⟨who, n⟩ ∈ s.ephemerals := by
      intro n
      rw [List.mem_map]
      constructor
      · rintro ⟨e, he, rfl⟩
        obtain ⟨he, hew⟩ := List.mem_filter.mp he
        have hew : e.session = who := by simpa using hew
        rw [← hew]
        exact he
      · intro h
        exact ⟨_, List.mem_filter.mpr ⟨h, by simp⟩, rfl⟩
    obtain ⟨u, hu, hru, hju, hau, heu, hpu, o, ho, hmo⟩ := ephemeralClose_ok ret
      ((s.ephemerals.filter fun e => e.session = who).map (·.eName)) hs.recorded hs.once
      (by
        apply List.Nodup.map_on
        · intro e he f hf hef
          have hew : e.session = who := by simpa using (List.mem_filter.mp he).2
          have hfw : f.session = who := by simpa using (List.mem_filter.mp hf).2
          cases e
          cases f
          simp only [Ephemeral.mk.injEq] at hew hfw hef ⊢
          exact ⟨hew.trans hfw.symm, hef⟩
        · exact hs.once.filter _)
      (fun n hn => (hmem n).mp hn)
      (by
        intro n hn hall
        exact hrec _ ((hmem n).mp hn) rfl hall)
    have hleft : ∀ e ∈ u.ephemerals, e ∈ s.ephemerals ∧ e.session ≠ who := by
      intro e he
      rw [heu] at he
      obtain ⟨hes, hq⟩ := List.mem_filter.mp he
      refine ⟨hes, ?_⟩
      rintro rfl
      simp only [decide_eq_true_eq, true_and] at hq
      exact hq ((hmem _).mpr hes)
    obtain ⟨t, ht, hrt, het, hat, hot⟩ := pathEventFreeAll_ok
      (u.joints.filter fun j => j.jAdaptor = who) hru List.filter_sublist.subperm
      (by
        intro j hj
        simpa using (List.mem_filter.mp hj).2)
      (by
        intro j hj
        obtain ⟨hj, hjw⟩ := List.mem_filter.mp hj
        rw [hju] at hj ⊢
        apply (hev j hj (by simpa using hjw)).imp id
        intro h q hq
        obtain ⟨r, hr, hqr⟩ := hpu _ q hq
        have hzero := hs.recorded.refs _ r hr
        rw [h r hr] at hzero
        have hnone : s.ephemerals.countP (fun e => e.eName = r.pName) = 0 := by omega
        rw [List.countP_eq_zero] at hnone
        rw [hru.refs _ q hq]
        have hnone' : u.ephemerals.countP (fun e => e.eName = q.pName) = 0 := by
          rw [List.countP_eq_zero]
          intro e he
          rw [hqr]
          exact hnone e (hleft e he).1
        rw [hnone']
        rfl)
    refine ⟨{ t with adaptors := t.adaptors.erase who }, ?_, ?_, o, hot.trans ho, ?_⟩
    · simp only [bind, Except.bind]
      rw [hu]
      simp only
      rw [ht]
    · constructor
      · change Recorded t.ephemerals { t with adaptors := t.adaptors.erase who }
        rw [het]
        exact ⟨hrt.fresh, hrt.table, hrt.rooted, hrt.jlive, hrt.elive, hrt.refs⟩
      · change t.ephemerals.Nodup
        rw [het, heu]
        exact hs.once.filter _
      · intro e he
        change e ∈ t.ephemerals at he
        rw [het] at he
        obtain ⟨hes, hne⟩ := hleft e he
        apply (List.mem_erase_of_ne hne).mpr
        rw [hat, hau]
        exact hs.eopen e hes
    · intro n
      rw [hmo, hmem]
  · rw [if_pos hwho]
    refine ⟨s, rfl, hs, [], (List.append_nil _).symm, ?_⟩
    intro n
    simp only [List.not_mem_nil, false_iff, not_and]
    intro h
    exact absurd (hs.eopen _ h) hwho

/-! ### Steps -/

/-- What a request gives that removes no file. -/
def Harmless (s : PFSPaths) (r : Except PathFault PFSPaths) : Prop :=
  ∃ t, r = .ok t ∧ t.Kept ∧ ∃ o, t.out = s.out ++ o ∧ ∀ n, PathOut.removed n ∉ o

theorem Harmless.alike (hs : s.Kept) (h : Alike s t) : Harmless s (.ok t) :=
  ⟨t, rfl, hs.alike h, h.out⟩

/-- A request goes on behind what has sent nothing. -/
theorem Harmless.after (ho : t.out = s.out) {r : Except PathFault PFSPaths}
    (h : Harmless t r) : Harmless s r := by
  unfold Harmless at h ⊢
  rwa [ho] at h

/-- Both requests that write a file record it first if it is ephemeral. -/
theorem ephemeral_then {bEphemeral : Bool} (hs : s.Kept)
    (hwho : bEphemeral = true → who ∈ s.adaptors) (n : List Char)
    (f : PFSPaths → Except PathFault PFSPaths)
    (hf : ∀ t, t.Kept → t.out = s.out → Harmless t (f t)) :
    Harmless s (if bEphemeral then pfsEphemeral who n s >>= f else .ok s >>= f) := by
  cases bEphemeral with
  | false => exact hf s hs rfl
  | true =>
      rw [if_pos rfl]
      obtain ⟨t, ht, hkt, -, hot⟩ := ephemeral_ok hs (hwho rfl) n
      rw [ht]
      exact (hf t hkt hot).after hot

/-- A session without an adaptor records nothing. -/
theorem ephemeral_closed {bEphemeral : Bool} (hwho : ¬ (bEphemeral = true → who ∈ s.adaptors))
    (n : List Char) (f : PFSPaths → Except PathFault PFSPaths) :
    (if bEphemeral then pfsEphemeral who n s >>= f else .ok s >>= f) = .error .nullAdaptor := by
  push Not at hwho
  unfold pfsEphemeral
  rw [if_pos hwho.1, if_pos hwho.2]
  rfl

/-- The requests that change a directory send its events and go on. -/
theorem updateDir_then (hs : s.Kept) (h : Alike s t) (c : Prop) [Decidable c] (n : List Char)
    (edMode : PFSDirEntryMode) (f : PFSPaths → Except PathFault PFSPaths)
    (hf : ∀ u, Alike s u → Harmless s (f u)) :
    Harmless s (if c then pfsUpdateDir n edMode t >>= f else .ok t >>= f) := by
  split_ifs
  · obtain ⟨u, hu, hal⟩ := updateDir_ok (hs.alike h).recorded n edMode
    rw [hu]
    exact hf u (h.trans hal)
  · exact hf t h

theorem createS_ok {bEphemeral : Bool} (hs : s.Kept)
    (hwho : bEphemeral = true → who ∈ s.adaptors) (cName : List Char) (ret : ℤ) :
    Harmless s (pfsCreateS who cName bEphemeral ret s) := by
  unfold pfsCreateS
  apply ephemeral_then hs hwho
  intro t ht _
  apply updateDir_then ht .refl
  intro u hal
  exact .alike ht (hal.trans (.send (by simp)))

theorem writeS_ok {bEphemeral : Bool} (hs : s.Kept)
    (hwho : bEphemeral = true → who ∈ s.adaptors) (wName : List Char)
    (ret retCreate retAgain : ℤ) :
    Harmless s (pfsWriteS who wName bEphemeral ret retCreate retAgain s) := by
  unfold pfsWriteS
  apply ephemeral_then hs hwho
  intro t ht _
  apply updateDir_then ht .refl
  intro u hal
  apply updateDir_then ht hal
  intro v hal'
  exact .alike ht (hal'.trans (.send (by simp)))

theorem deleteS_ok (hs : s.Kept) (dName : List Char) (ret : ℤ) :
    Harmless s (pfsDeleteS who dName ret s) := by
  unfold pfsDeleteS
  apply updateDir_then hs .refl
  intro u hal
  exact .alike hs (hal.trans (.send (by simp)))

/-- An event is set, or cancelled while its path has another event or no record. -/
theorem eventDirS_ok {edId : SessionId} {edName : List Char} {edSet bBound : Bool} (hs : s.Kept)
    (hset : edId ∈ s.adaptors → edSet = false → s.pathGet edName ≠ none)
    (hbound : edId ∉ s.adaptors → bBound = false)
    (hlast : edSet = false → ∀ a p, s.pathGet edName = some a → s.path a = some p →
      s.events a = [⟨edId, a⟩] → p.pRefCnt = 0) :
    Harmless s (pfsEventDirS who edId edName edSet bBound s) := by
  unfold pfsEventDirS
  by_cases hid : edId ∈ s.adaptors
  · rw [if_neg (not_not.mpr hid)]
    cases edSet with
    | true =>
        obtain ⟨hrec, ⟨p, hp, -⟩, hj, he, ha, ho⟩ := pathAlloc_recorded hs.recorded edName
        rw [if_pos rfl]
        rcases hau : s.pathAlloc edName with ⟨a, u⟩
        rw [hau] at hrec hp hj he ha ho
        simp only at hrec hp hj he ha ho
        have hru : Recorded u.ephemerals u := by
          rw [he]
          exact hrec
        have hku : ({ u with joints := ⟨edId, a⟩ :: s.joints } : PFSPaths).Kept := by
          constructor
          · apply hru.joints
            intro j hj'
            rcases List.mem_cons.mp hj' with rfl | hj'
            · exact ⟨p, hp⟩
            · exact hrec.jlive j (hj ▸ hj')
          · exact he ▸ hs.once
          · change ∀ e ∈ u.ephemerals, e.session ∈ u.adaptors
            rw [he, ha]
            exact hs.eopen
        apply Harmless.after (t := { u with joints := ⟨edId, a⟩ :: s.joints }) ho
        rw [← hj] at hku ⊢
        exact .alike hku (.send (by simp))
    | false =>
        rw [if_neg Bool.false_ne_true]
        obtain ⟨a, hg⟩ := Option.ne_none_iff_exists'.mp (hset hid rfl)
        obtain ⟨p, hp, -⟩ := hs.recorded.get hg
        simp only [hg]
        by_cases hj : ⟨edId, a⟩ ∈ s.joints
        · obtain ⟨u, hu, hru, -, heu, hau, hou, -⟩ := pathEventFree_ok hs.recorded hj (by
            intro hnil q hq
            apply hlast rfl a q hg hq
            have hperm : (s.events a).Perm
                ((⟨edId, a⟩ :: s.joints.erase ⟨edId, a⟩).filter fun j => j.jPArg = a) :=
              (List.perm_cons_erase hj).filter _
            rw [List.filter_cons_of_pos (by simp), hnil] at hperm
            exact List.perm_singleton.mp hperm)
          simp only [if_pos hj, bind, Except.bind]
          rw [hu]
          have hku : u.Kept := by
            constructor
            · exact heu ▸ hru
            · exact heu ▸ hs.once
            · rw [heu, hau]
              exact hs.eopen
          exact (Harmless.alike hku (.send (by simp))).after hou
        · simp only [if_neg hj, bind, Except.bind]
          exact .alike hs (.send (by simp))
  · rw [if_pos hid, hbound hid]
    exact .alike hs (.send (by simp))

end Changes

/-- A path goes only with the last that refers to it: an event that is the last
of a path is cancelled when no session records the file, and a session closes
when what it records alone has no event, and what it alone has events of is not
recorded. -/
def Unshared (s : PFSPaths) : PathOp → Prop
  | .eventDir _ edId edName edSet _ => edSet = false →
      ∀ a p, s.pathGet edName = some a → s.path a = some p → s.events a = [⟨edId, a⟩] →
        p.pRefCnt = 0
  | .close who _ =>
      (∀ e ∈ s.ephemerals, e.session = who →
        (∀ f ∈ s.ephemerals, f.eName = e.eName → f.session = who) →
          ∀ a, s.cPath e.eName = some a → s.events a = []) ∧
      ∀ j ∈ s.joints, j.jAdaptor = who →
        (∃ k ∈ s.joints, k.jPArg = j.jPArg ∧ k.jAdaptor ≠ who) ∨
          ∀ p, s.path j.jPArg = some p → p.pRefCnt = 0
  | _ => True

/-- The files that a request removes: those that the closing session records,
and no other does. -/
def LastOf (s : PFSPaths) (op : PathOp) (n : List Char) : Prop :=
  ∃ who ret, op = .close who ret ∧ ⟨who, n⟩ ∈ s.ephemerals ∧
    ∀ e ∈ s.ephemerals, e.eName = n → e.session = who

/-- An event is cancelled that the client has not set. -/
def NotSet (s : PFSPaths) (op : PathOp) : Prop :=
  ∃ who edId edName bBound, op = .eventDir who edId edName false bBound ∧
    ∀ a p, s.path a = some p → p.pName = rootOmitted edName → ⟨edId, a⟩ ∉ s.joints

section Runs
variable {s t : PFSPaths} {op : PathOp}

theorem PFSPaths.Kept.open (hs : s.Kept) (who : SessionId) :
    (if who ∈ s.adaptors then s else { s with adaptors := who :: s.adaptors }).Kept := by
  split_ifs
  · exact hs
  · exact ⟨⟨hs.recorded.fresh, hs.recorded.table, hs.recorded.rooted, hs.recorded.jlive,
      hs.recorded.elive, hs.recorded.refs⟩, hs.once,
      fun e he => List.mem_cons_of_mem _ (hs.eopen e he)⟩

/-- What a request does from a state in which the records are kept. -/
theorem pathStep_ok (hs : s.Kept) (hop : Unshared s op) :
    (∃ t, pathStep s op = .ok t ∧ t.Kept ∧ ∃ o, t.out = s.out ++ o ∧
        ∀ n, PathOut.removed n ∈ o ↔ LastOf s op n) ∨
      pathStep s op = .error .nullAdaptor ∨
      NotSet s op ∧ pathStep s op = .error .assertPath := by
  have hharm : Harmless s (pathStep s op) → (∀ n, ¬ LastOf s op n) →
      (∃ t, pathStep s op = .ok t ∧ t.Kept ∧ ∃ o, t.out = s.out ++ o ∧
          ∀ n, PathOut.removed n ∈ o ↔ LastOf s op n) ∨
        pathStep s op = .error .nullAdaptor ∨
        NotSet s op ∧ pathStep s op = .error .assertPath := by
    rintro ⟨t, ht, hkt, o, ho, hno⟩ hnone
    refine .inl ⟨t, ht, hkt, o, ho, ?_⟩
    intro n
    simp only [hno n, hnone n]
  cases op with
  | «open» who =>
      refine .inl ⟨_, rfl, hs.open who, [], ?_, ?_⟩
      · split_ifs
        · exact (List.append_nil _).symm
        · exact (List.append_nil _).symm
      · simp [LastOf]
  | create who cName bEphemeral ret =>
      by_cases hwho : bEphemeral = true → who ∈ s.adaptors
      · exact hharm (createS_ok hs hwho cName ret) (by simp [LastOf])
      · exact .inr (.inl (ephemeral_closed hwho _ _))
  | write who wName bEphemeral ret retCreate retAgain =>
      by_cases hwho : bEphemeral = true → who ∈ s.adaptors
      · exact hharm (writeS_ok hs hwho wName ret retCreate retAgain) (by simp [LastOf])
      · exact .inr (.inl (ephemeral_closed hwho _ _))
  | delete who dName ret => exact hharm (deleteS_ok hs dName ret) (by simp [LastOf])
  | eventDir who edId edName edSet bBound =>
      by_cases hset : edId ∈ s.adaptors → edSet = false → s.pathGet edName ≠ none
      · by_cases hbound : edId ∉ s.adaptors → bBound = false
        · exact hharm (eventDirS_ok hs hset hbound hop) (by simp [LastOf])
        · push Not at hbound
          right
          left
          change pfsEventDirS who edId edName edSet bBound s = _
          unfold pfsEventDirS
          rw [if_pos hbound.1, if_pos (by simpa using hbound.2)]
      · push Not at hset
        obtain ⟨hid, rfl, hg⟩ := hset
        refine .inr (.inr ⟨⟨who, edId, edName, bBound, rfl, ?_⟩, ?_⟩)
        · intro a p hp hpn
          have hget := (hs.recorded.table (rootOmitted edName) a).mpr ⟨p, hp, hpn⟩
          cases hg.symm.trans hget
        · change pfsEventDirS who edId edName false bBound s = _
          unfold pfsEventDirS
          rw [if_neg (not_not.mpr hid), if_neg Bool.false_ne_true, hg]
  | close who ret =>
      obtain ⟨t, ht, hkt, o, ho, hmo⟩ := pathClose_ok hs ret hop.1 hop.2
      refine .inl ⟨t, ht, hkt, o, ho, ?_⟩
      intro n
      rw [hmo]
      constructor
      · rintro ⟨hmem, hall⟩
        exact ⟨who, ret, rfl, hmem, hall⟩
      · rintro ⟨v, r, heq, hmem, hall⟩
        cases heq
        exact ⟨hmem, hall⟩

theorem empty_kept : ({} : PFSPaths).Kept := by
  refine ⟨⟨by simp, by simp, by simp, by simp, by simp, by simp⟩, List.nodup_nil, by simp⟩

/-- The sessions that record a file. -/
def PFSPaths.recorders (n : List Char) (s : PFSPaths) : Finset SessionId :=
  ((s.ephemerals.filter fun e => e.eName = n).map (·.session)).toFinset

/-- Every file recorded has a path that counts the sessions, and every event
refers to a path that is found by its name. -/
structure PFSPaths.Counted (s : PFSPaths) : Prop where
  refs : ∀ e ∈ s.ephemerals, ∃ a p, s.cPath e.eName = some a ∧ s.path a = some p ∧
    p.pRefCnt = (s.recorders e.eName).card
  events : ∀ j ∈ s.joints, ∃ p, s.path j.jPArg = some p ∧ s.cPath p.pName = some j.jPArg

theorem PFSPaths.Kept.counted (hs : s.Kept) : s.Counted := by
  constructor
  · intro e he
    obtain ⟨a, ha⟩ := hs.recorded.elive e he
    obtain ⟨p, hp, hpn⟩ := (hs.recorded.table _ a).mp ha
    refine ⟨a, p, ha, hp, ?_⟩
    have hnd : ((s.ephemerals.filter fun f => f.eName = e.eName).map (·.session)).Nodup := by
      apply List.Nodup.map_on _ (hs.once.filter _)
      intro f hf g hg hfg
      have hfn : f.eName = e.eName := by simpa using (List.mem_filter.mp hf).2
      have hgn : g.eName = e.eName := by simpa using (List.mem_filter.mp hg).2
      cases f
      cases g
      simp only [Ephemeral.mk.injEq] at hfn hgn hfg ⊢
      exact ⟨hfg, hfn.trans hgn.symm⟩
    rw [hs.recorded.refs a p hp, hpn]
    unfold PFSPaths.recorders
    rw [List.toFinset_card_of_nodup hnd, List.length_map, List.countP_eq_length_filter]
  · intro j hj
    obtain ⟨p, hp⟩ := hs.recorded.jlive j hj
    exact ⟨p, hp, (hs.recorded.table _ _).mpr ⟨p, hp, rfl⟩⟩

/-- Where no path goes while another use of it is left, the records count the
sessions, an ephemeral file is removed with the last that records it, and the
path of a record or of an event that was set is always found. -/
theorem ephemeral_counts (ops : List PathOp) (hops : Along pathStep Unshared {} ops) :
    ∀ t, run pathStep {} ops = .ok t → t.Counted ∧ ∀ op, Unshared t op →
      (∀ u, pathStep t op = .ok u → u.Counted ∧ ∃ o, u.out = t.out ++ o ∧
        ∀ n, PathOut.removed n ∈ o ↔ LastOf t op n) ∧
      pathStep t op ≠ .error .useAfterFree ∧
      (pathStep t op = .error .assertPath → NotSet t op) := by
  intro t ht
  have hkt : t.Kept := by
    refine run_invariant ?_ empty_kept hops ht
    intro s op u hs hop hu
    rcases pathStep_ok hs hop with ⟨v, hv, hkv, -⟩ | herr | ⟨-, herr⟩
    · cases hv.symm.trans hu
      exact hkv
    · cases herr.symm.trans hu
    · cases herr.symm.trans hu
  refine ⟨hkt.counted, ?_⟩
  intro op hop
  rcases pathStep_ok hkt hop with ⟨v, hv, hkv, hov⟩ | herr | ⟨hnot, herr⟩
  · rw [hv]
    refine ⟨?_, by simp, by simp⟩
    intro u hu
    cases hu
    exact ⟨hkv.counted, hov⟩
  · rw [herr]
    exact ⟨by simp, by simp, by simp⟩
  · rw [herr]
    exact ⟨by simp, by simp, fun _ => hnot⟩

/-- Two sessions record a file, one of them waits for its events, and the other
closes. -/
theorem ephemeral_counts_two :
    ∃ t, run pathStep {} [.open (sessionOf 1 1), .open (sessionOf 2 1),
        .create (sessionOf 1 1) ['f'] true 0, .create (sessionOf 2 1) ['f'] true 0,
        .eventDir (sessionOf 2 1) (sessionOf 2 1) ['f'] true true,
        .close (sessionOf 1 1) fun _ => 0] = .ok t ∧ t.Counted := by
  refine (fun ht => ⟨_, ht, (ephemeral_counts _ ?_ _ ht).1⟩) rfl
  refine ⟨trivial, fun s hs => ?_⟩
  cases hs
  refine ⟨trivial, fun s hs => ?_⟩
  cases hs
  refine ⟨trivial, fun s hs => ?_⟩
  cases hs
  refine ⟨trivial, fun s hs => ?_⟩
  cases hs
  refine ⟨fun h => (by cases h), fun s hs => ?_⟩
  cases hs
  refine ⟨⟨?_, ?_⟩, fun _ _ => trivial⟩
  · intro e he _ hall
    change e ∈ [⟨sessionOf 1 1, ['f']⟩, ⟨sessionOf 2 1, ['f']⟩] at he
    have hname : e.eName = ['f'] := by
      rcases List.mem_pair.mp he with rfl | rfl
      · rfl
      · rfl
    have h := hall ⟨sessionOf 2 1, ['f']⟩ (by decide) hname.symm
    exact absurd h (by decide)
  · intro j hj hjw
    change j ∈ [⟨sessionOf 2 1, 0⟩] at hj
    rw [List.mem_singleton.mp hj] at hjw
    exact absurd hjw (by decide)

/-- The session leaves its events alone. -/
def Waiting (edId : SessionId) : PathOp → Prop
  | .eventDir _ id _ _ _ => id ≠ edId
  | .close who _ => who ≠ edId
  | _ => True

/-- A cancelled event takes the path of a file along that a session has
recorded, whose closing fails, and a closing session takes the path of an event
along that another has set, whose cancellation fails. -/
theorem ephemeral_not_counts :
    (¬ ∀ ops t, run pathStep {} ops = .ok t → ∀ e ∈ t.ephemerals,
      ∃ a p, t.cPath e.eName = some a ∧ t.path a = some p ∧
        p.pRefCnt = (t.recorders e.eName).card) ∧
    (¬ ∀ ops t, run pathStep {} ops = .ok t → ∀ j ∈ t.joints,
      ∃ p, t.path j.jPArg = some p ∧ t.cPath p.pName = some j.jPArg) ∧
    (¬ ∀ ops t who ret, run pathStep {} ops = .ok t →
      pathStep t (.close who ret) ≠ .error .assertPath) ∧
    ¬ ∀ ops ops' t edId edName,
      run pathStep {} (ops ++ .eventDir edId edId edName true true :: ops') = .ok t →
      (∀ op ∈ ops', Waiting edId op) →
        pathStep t (.eventDir edId edId edName false true) ≠ .error .assertPath := by
  refine ⟨?_, ?_, ?_, ?_⟩
  · intro h
    obtain ⟨a, p, ha, -⟩ := h [.open (sessionOf 1 1), .open (sessionOf 2 1),
      .create (sessionOf 1 1) ['f'] true 0,
      .eventDir (sessionOf 2 1) (sessionOf 2 1) ['f'] true true,
      .eventDir (sessionOf 2 1) (sessionOf 2 1) ['f'] false true] _ rfl
      ⟨sessionOf 1 1, ['f']⟩ List.mem_cons_self
    cases ha
  · intro h
    obtain ⟨p, hp, -⟩ := h [.open (sessionOf 1 1), .open (sessionOf 2 1),
      .create (sessionOf 1 1) ['f'] true 0,
      .eventDir (sessionOf 2 1) (sessionOf 2 1) ['f'] true true,
      .close (sessionOf 1 1) fun _ => 0] _ rfl ⟨sessionOf 2 1, 0⟩ List.mem_cons_self
    cases hp
  · intro h
    apply h [.open (sessionOf 1 1), .open (sessionOf 2 1),
      .create (sessionOf 1 1) ['f'] true 0,
      .eventDir (sessionOf 2 1) (sessionOf 2 1) ['f'] true true,
      .eventDir (sessionOf 2 1) (sessionOf 2 1) ['f'] false true] _ (sessionOf 1 1) (fun _ => 0) rfl
    rfl
  · intro h
    apply h [.open (sessionOf 1 1), .open (sessionOf 2 1),
      .create (sessionOf 1 1) ['f'] true 0] [.close (sessionOf 1 1) fun _ => 0] _
      (sessionOf 2 1) ['f'] rfl
    · intro op hop
      rw [List.mem_singleton.mp hop]
      change sessionOf 1 1 ≠ sessionOf 2 1
      decide
    · rfl

end Runs

end PaxosSolutions
