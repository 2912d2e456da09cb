import PaxosSolutions.VV.SegmentLock
import Mathlib.Data.List.Chain
import Mathlib.Data.List.Sort

/-!
# The table of segment locks

A request goes through a row of places, each a group of a volume. Its lock is
the right one as long as no two neighbours in the row are groups of the same
number in different volumes, and the table is large enough if the place does not
change more often than it has entries.
-/
namespace PaxosSolutions.VV
open Lib

def place (pVV : VV) (offset : ℕ) : String × ℕ := (pVV.dbName, vs2dlg (b2vs pVV offset))

/-- The places a read of a unit goes through. -/
def unitPlaces (cow : DHashCOW) (offset snapUnit : ℕ) : List VV → VV → List (String × ℕ)
  | [], pVV => [place pVV offset]
  | pVV1 :: parents, pVV =>
      place pVV offset ::
        if cow (place pVV offset) snapUnit then [] else unitPlaces cow offset snapUnit parents pVV1

def readPlaces (cow : DHashCOW) (pVV : VV) (parents : List VV) (ps : List (ℕ × ℕ)) :
    List (String × ℕ) :=
  ps.flatMap fun p => unitPlaces cow p.1 (p.1 / SNAP_UNIT_SIZE) parents pVV

/-- How often the place changes in a row, from `cur` on. -/
def changes : Option (String × ℕ) → List (String × ℕ) → ℕ
  | _, [] => 0
  | cur, p :: ps => (if cur = some p then 0 else 1) + changes (some p) ps

/-- Every lock is given, neighbours of one group number are one place, and the
place changes at most `num` times. -/
structure PlacesFit (given : String × ℕ → Bool) (num : ℕ) (ps : List (String × ℕ)) : Prop where
  given : ∀ p ∈ ps, given p = true
  told : ps.IsChain fun a b => a.2 = b.2 → a = b
  room : changes none ps ≤ num

/-- The same from a place on, where the table has `n` entries. -/
def Fits (given : String × ℕ → Bool) (num : ℕ) : Option (String × ℕ) → ℕ → List (String × ℕ) → Prop
  | _, _, [] => True
  | cur, n, p :: ps =>
      (∀ q, cur = some q → q.2 = p.2 → q = p) ∧ (cur = some p ∨ n < num ∧ given p = true) ∧
        Fits given num (some p) (n + if cur = some p then 0 else 1) ps

/-- The place after a row. -/
def lastPlace (cur : Option (String × ℕ)) (ps : List (String × ℕ)) : Option (String × ℕ) :=
  ps.foldl (fun _ p => some p) cur

theorem changes_append (cur : Option (String × ℕ)) (ps qs : List (String × ℕ)) :
    changes cur (ps ++ qs) = changes cur ps + changes (lastPlace cur ps) qs := by
  induction ps generalizing cur with
  | nil => exact (Nat.zero_add _).symm
  | cons p ps ih =>
      rw [List.cons_append, changes, changes, ih, Nat.add_assoc]
      rfl

theorem fits_append {given : String × ℕ → Bool} {num n : ℕ} {cur : Option (String × ℕ)}
    {ps qs : List (String × ℕ)} :
    Fits given num cur n (ps ++ qs) ↔
      Fits given num cur n ps ∧ Fits given num (lastPlace cur ps) (n + changes cur ps) qs := by
  induction ps generalizing cur n with
  | nil => simp [Fits, lastPlace, changes]
  | cons p ps ih =>
      have hlast : lastPlace cur (p :: ps) = lastPlace (some p) ps := rfl
      rw [List.cons_append, Fits, Fits, ih, changes, hlast, Nat.add_assoc]
      simp only [and_assoc]

theorem fits_iff {given : String × ℕ → Bool} {num n : ℕ} {cur : Option (String × ℕ)}
    {ps : List (String × ℕ)} (hn : n ≤ num) (hcur : ∀ q, cur = some q → given q = true) :
    Fits given num cur n ps ↔
      (∀ p ∈ ps, given p = true) ∧ (cur.toList ++ ps).IsChain (fun a b => a.2 = b.2 → a = b) ∧
        n + changes cur ps ≤ num := by
  induction ps generalizing cur n with
  | nil => cases cur <;> simp [Fits, changes, hn]
  | cons p ps ih =>
      by_cases hp : cur = some p
      · subst hp
        have hgiven := hcur p rfl
        have hih := ih hn hcur
        simp only [Option.toList_some, List.cons_append, List.nil_append] at hih ⊢
        rw [Fits, if_pos rfl, Nat.add_zero, hih, changes, if_pos rfl, Nat.zero_add,
          List.isChain_cons_cons]
        simp [hgiven]
      · have hstep : (cur.toList ++ p :: ps).IsChain (fun a b => a.2 = b.2 → a = b) ↔
            (∀ q, cur = some q → q.2 = p.2 → q = p) ∧
              (p :: ps).IsChain fun a b => a.2 = b.2 → a = b := by
          cases cur with
          | none => simp
          | some q => simp [List.isChain_cons_cons]
        rw [Fits, if_neg hp, changes, if_neg hp, hstep]
        by_cases hroom : n < num ∧ given p = true
        · have hp' : ∀ q, some p = some q → given q = true := by
            rintro q hq
            cases hq
            exact hroom.2
          have hle : n + 1 ≤ num := hroom.1
          have hih := ih hle hp'
          simp only [Option.toList_some, List.cons_append, List.nil_append] at hih
          rw [hih, Nat.add_assoc]
          simp [hroom, and_assoc, and_left_comm]
        · refine iff_of_false (fun h => hroom (h.2.1.resolve_left hp)) ?_
          rintro ⟨hgiven, -, hle⟩
          exact hroom ⟨by omega, hgiven p List.mem_cons_self⟩

theorem fits_none_iff {given : String × ℕ → Bool} {num : ℕ} {ps : List (String × ℕ)} :
    Fits given num none 0 ps ↔ PlacesFit given num ps := by
  rw [fits_iff (Nat.zero_le num) (by simp)]
  simp only [Option.toList_none, List.nil_append, Nat.zero_add]
  exact ⟨fun h => ⟨h.1, h.2.1, h.2.2⟩, fun h => ⟨h.given, h.told, h.room⟩⟩

/-! ### One lock -/

/-- The lock of a place is given in the mode of the request. -/
def gives (e : VVEnv) (write : Bool) (p : String × ℕ) : Bool :=
  if write then e.vLockW p else (e.vLockR p).isSome

/-- A table of locks with `n` entries, the latest of which is of the place `cur`. -/
structure LockedAt (num : ℕ) (write : Bool) (r : VSDRun) (cur : Option (String × ℕ)) (n : ℕ) : Prop where
  size : r.lock.lIDlgNum = num
  latest : r.lock.lPDlg.map VSDlg.name = cur
  group : ∀ d, r.lock.lPDlg = some d → r.lock.lUDlg = d.uDlg
  own : write = true → ∀ d, r.lock.lPDlg = some d → d.dOwn = .w
  count : r.lock.lPDlgTab.length = n
  room : n ≤ num
  taken : r.lock.lPDlgTab = r.taken.map some
  released : r.released = []

def AllRight (r : VSDRun) : Prop := ∀ u ∈ r.used, u.Right

variable {e : VVEnv} {num n : ℕ} {write : Bool} {r r' : VSDRun} {cur : Option (String × ℕ)}
  {pVV : VV} {offset : ℕ} {d : VSDlg}

/-- The use of a lock object at a place. -/
def useAt (write : Bool) (p : String × ℕ) (d : VSDlg) (r : VSDRun) : VSDRun :=
  { r with used := r.used ++ [⟨p.1, p.2, write, d⟩] }

theorem useLatest_some {p : String × ℕ} (h : r.lock.lPDlg = some d) :
    useLatest write p.1 p.2 r = .ok (d, useAt write p d r) := by
  unfold useLatest
  rw [h]
  rfl

/-- A lock object of a place, in the mode it is given. -/
def lockOf (e : VVEnv) (write : Bool) (p : String × ℕ) : Option VSDlg :=
  if write then if e.vLockW p then some ⟨p.1, p.2, .w⟩ else none
  else (e.vLockR p).map fun own => ⟨p.1, p.2, own⟩

theorem lockOf_isSome (p : String × ℕ) : (lockOf e write p).isSome = gives e write p := by
  unfold lockOf gives
  cases write with
  | true =>
      simp only [if_true]
      split_ifs with h <;> simp [h]
  | false => simp

theorem lockOf_name {p : String × ℕ} (h : lockOf e write p = some d) : d.name = p := by
  unfold lockOf at h
  split_ifs at h with hw hg
  · cases h
    rfl
  · obtain ⟨own, -, rfl⟩ := Option.map_eq_some_iff.mp h
    rfl

theorem lockOf_own {p : String × ℕ} (h : lockOf e true p = some d) : d.dOwn = .w := by
  rw [lockOf, if_pos rfl] at h
  split_ifs at h with hg
  cases h
  rfl

/-- The group is that of the latest lock, which is used again. -/
theorem lockAt_same (h : LockedAt num write r cur n) (hd : r.lock.lPDlg = some d)
    (hg : d.uDlg = (place pVV offset).2) :
    lockAt e write pVV offset r = .ok (d, useAt write (place pVV offset) d r) := by
  have hgroup : r.lock.lUDlg = vs2dlg (b2vs pVV offset) := (h.group d hd).trans hg
  have huse : useLatest write pVV.dbName (vs2dlg (b2vs pVV offset)) r = _ :=
    useLatest_some (p := place pVV offset) hd
  unfold lockAt
  cases write with
  | true =>
      have hown := h.own rfl d hd
      simp only [vsdLock, vsdLockW, hd, hgroup, hown, if_true]
      exact huse
  | false =>
      have hlock : vsdLock e false pVV (b2vs pVV offset) r = .ok r := by
        simp [vsdLock, vsdLockR, hd, hgroup]
      rw [hlock]
      exact huse

/-- The lock of another place is asked for. -/
theorem lockAt_new (h : LockedAt num write r cur n)
    (hne : ∀ q, cur = some q → q.2 ≠ (place pVV offset).2) :
    lockAt e write pVV offset r =
      (storeDlg (place pVV offset).2 (lockOf e write (place pVV offset)) r).bind
        (useLatest write (place pVV offset).1 (place pVV offset).2) := by
  have hgroup : ∀ d, r.lock.lPDlg = some d → r.lock.lUDlg ≠ vs2dlg (b2vs pVV offset) := by
    intro d hd
    rw [h.group d hd]
    exact hne d.name (by rw [← h.latest, hd]; rfl)
  unfold lockAt
  cases write with
  | true =>
      cases hd : r.lock.lPDlg with
      | none =>
          simp only [vsdLock, vsdLockW, hd, if_true]
          rfl
      | some d =>
          simp only [vsdLock, vsdLockW, hd, if_true, if_neg (hgroup d hd)]
          rfl
  | false =>
      have hnot : ¬(r.lock.lPDlg.isSome = true ∧ r.lock.lUDlg = vs2dlg (b2vs pVV offset)) := by
        rintro ⟨hsome, hu⟩
        obtain ⟨d, hd⟩ := Option.isSome_iff_exists.mp hsome
        exact hgroup d hd hu
      have hlock : vsdLock e false pVV (b2vs pVV offset) r = storeDlg _ _ r := if_neg hnot
      rw [hlock]
      rfl

/-- The state after a lock was taken. -/
def takeAt (p : String × ℕ) (d : VSDlg) (r : VSDRun) : VSDRun :=
  { r with
    lock := { r.lock with
      lUDlg := p.2
      lPDlg := some d
      lPDlgTab := r.lock.lPDlgTab ++ [some d] }
    taken := r.taken ++ [d] }

theorem lockAt_taken (h : LockedAt num write r cur n)
    (hne : ∀ q, cur = some q → q.2 ≠ (place pVV offset).2) (hroom : n < num)
    (hd : lockOf e write (place pVV offset) = some d) :
    lockAt e write pVV offset r =
      .ok (d, useAt write (place pVV offset) d (takeAt (place pVV offset) d r)) := by
  have hlt : r.lock.lPDlgTab.length < r.lock.lIDlgNum := by
    rw [h.count, h.size]
    exact hroom
  rw [lockAt_new h hne, storeDlg, if_pos hlt, hd]
  exact useLatest_some (r := takeAt (place pVV offset) d r) rfl

theorem lockAt_refused (h : LockedAt num write r cur n)
    (hne : ∀ q, cur = some q → q.2 ≠ (place pVV offset).2)
    (hno : ¬(n < num ∧ gives e write (place pVV offset) = true)) :
    ∃ f, lockAt e write pVV offset r = .error f := by
  rw [lockAt_new h hne, storeDlg, h.count, h.size]
  split_ifs with hroom
  · have hnone : lockOf e write (place pVV offset) = none := by
      rw [← Option.not_isSome_iff_eq_none, lockOf_isSome]
      exact fun hg => hno ⟨hroom, hg⟩
    rw [hnone]
    exact ⟨.nullDlg, rfl⟩
  · exact ⟨_, rfl⟩

theorem allRight_useAt {p : String × ℕ} : AllRight (useAt write p d r) ↔
    AllRight r ∧ d.name = p ∧ (write = true → d.dOwn = .w) := by
  simp only [AllRight, useAt, List.forall_mem_append, List.forall_mem_singleton, VSDUse.Right,
    VSDlg.name, Prod.ext_iff, and_assoc]

theorem LockedAt.useAt {p : String × ℕ} (h : LockedAt num write r cur n) :
    LockedAt num write (VV.useAt write p d r) cur n :=
  ⟨h.size, h.latest, h.group, h.own, h.count, h.room, h.taken, h.released⟩

theorem LockedAt.takeAt {p : String × ℕ} (h : LockedAt num write r cur n) (hroom : n < num)
    (hd : lockOf e write p = some d) : LockedAt num write (VV.takeAt p d r) (some p) (n + 1) where
  size := h.size
  latest := congrArg some (lockOf_name hd)
  group := by
    rintro d' hd'
    cases hd'
    exact congrArg Prod.snd (lockOf_name hd).symm
  own := by
    rintro rfl d' hd'
    cases hd'
    exact lockOf_own hd
  count := by simp [VV.takeAt, h.count]
  room := hroom
  taken := by simp [VV.takeAt, h.taken]
  released := h.released

/-- A lock goes well if and only if its place fits behind the latest one. -/
theorem lockAt_iff (e : VVEnv) (pVV : VV) (offset : ℕ) (h : LockedAt num write r cur n) :
    (∃ d r', lockAt e write pVV offset r = .ok (d, r') ∧ AllRight r') ↔
      AllRight r ∧ (∀ q, cur = some q → q.2 = (place pVV offset).2 → q = place pVV offset) ∧
        (cur = some (place pVV offset) ∨ n < num ∧ gives e write (place pVV offset) = true) := by
  by_cases hsame : ∃ d, r.lock.lPDlg = some d ∧ d.uDlg = (place pVV offset).2
  · obtain ⟨d, hd, hg⟩ := hsame
    have hcur : cur = some d.name := by rw [← h.latest, hd]; rfl
    rw [lockAt_same h hd hg]
    constructor
    · rintro ⟨_, _, heq, hright⟩
      cases heq
      obtain ⟨hr, hname, -⟩ := allRight_useAt.mp hright
      rw [hcur, hname]
      exact ⟨hr, by rintro q hq -; cases hq; rfl, .inl rfl⟩
    · rintro ⟨hr, htold, -⟩
      refine ⟨_, _, rfl, allRight_useAt.mpr ⟨hr, htold _ hcur hg, ?_⟩⟩
      exact fun hw => h.own hw d hd
  · have hne : ∀ q, cur = some q → q.2 ≠ (place pVV offset).2 := by
      intro q hq hg
      rw [← h.latest] at hq
      obtain ⟨d, hd, rfl⟩ := Option.map_eq_some_iff.mp hq
      exact hsame ⟨d, hd, hg⟩
    have hcur : cur ≠ some (place pVV offset) := fun hc => hne _ hc rfl
    by_cases hfit : n < num ∧ gives e write (place pVV offset) = true
    · obtain ⟨d, hd⟩ := Option.isSome_iff_exists.mp ((lockOf_isSome _).trans hfit.2)
      rw [lockAt_taken h hne hfit.1 hd]
      constructor
      · rintro ⟨_, _, heq, hright⟩
        cases heq
        exact ⟨(allRight_useAt.mp hright).1, fun q hq hg => absurd hg (hne q hq), .inr hfit⟩
      · rintro ⟨hr, -, -⟩
        refine ⟨_, _, rfl, allRight_useAt.mpr ⟨hr, lockOf_name hd, ?_⟩⟩
        rintro rfl
        exact lockOf_own hd
    · obtain ⟨f, hf⟩ := lockAt_refused h hne hfit
      rw [hf]
      refine iff_of_false (by rintro ⟨_, _, heq, -⟩; cases heq) ?_
      rintro ⟨-, -, hc⟩
      exact hc.elim hcur hfit

theorem lockAt_after (h : LockedAt num write r cur n)
    (hok : lockAt e write pVV offset r = .ok (d, r')) (hright : AllRight r') :
    LockedAt num write r' (some (place pVV offset))
      (n + if cur = some (place pVV offset) then 0 else 1) ∧ d.name = place pVV offset ∧ AllRight r := by
  obtain ⟨hr, htold, hfit⟩ := (lockAt_iff e pVV offset h).mp ⟨d, r', hok, hright⟩
  by_cases hcur : cur = some (place pVV offset)
  · rw [← h.latest] at hcur
    obtain ⟨d', hd, hname⟩ := Option.map_eq_some_iff.mp hcur
    rw [lockAt_same h hd (congrArg Prod.snd hname)] at hok
    cases hok
    rw [h.latest] at hcur
    rw [if_pos hcur, ← hcur]
    exact ⟨h.useAt, hname, hr⟩
  · have hfit := hfit.resolve_left hcur
    have hne : ∀ q, cur = some q → q.2 ≠ (place pVV offset).2 := by
      rintro q rfl hg
      exact hcur (congrArg some (htold q rfl hg))
    obtain ⟨d', hd⟩ := Option.isSome_iff_exists.mp ((lockOf_isSome _).trans hfit.2)
    rw [lockAt_taken h hne hfit.1 hd] at hok
    cases hok
    rw [if_neg hcur]
    exact ⟨(h.takeAt hfit.1 hd).useAt, lockOf_name hd, hr⟩

theorem storeDlg_used {g : ℕ} {o : Option VSDlg} (h : storeDlg g o r = .ok r') :
    r'.used = r.used := by
  unfold storeDlg at h
  split_ifs at h
  cases h
  rfl

theorem vsdLock_used {uVS : ℕ} (h : vsdLock e write pVV uVS r = .ok r') : r'.used = r.used := by
  cases write with
  | true =>
      rw [vsdLock, if_pos rfl] at h
      unfold vsdLockW at h
      cases hd : r.lock.lPDlg with
      | none =>
          rw [hd] at h
          exact storeDlg_used h
      | some d =>
          rw [hd] at h
          dsimp only at h
          split_ifs at h
          · cases h
            rfl
          all_goals
            have hused := storeDlg_used h
            exact hused
  | false =>
      rw [vsdLock, if_neg (by decide)] at h
      unfold vsdLockR at h
      dsimp only at h
      split_ifs at h
      · cases h
        rfl
      · exact storeDlg_used h

theorem lockAt_used (h : lockAt e write pVV offset r = .ok (d, r')) (hright : AllRight r') :
    AllRight r := by
  unfold lockAt at h
  obtain ⟨r₁, h₁, h₂⟩ := except_bind_ok h
  have hused := vsdLock_used h₁
  unfold useLatest at h₂
  split at h₂
  · cases h₂
  · cases h₂
    intro u hu
    exact hright u (List.mem_append_left _ (hused ▸ hu))

/-! ### Reads -/

variable {cow : DHashCOW} {snapUnit : ℕ} {parents : List VV} {src : UnitSource}

theorem vvReadUnit_nil : vvReadUnit e cow offset snapUnit [] pVV r =
    (lockAt e false pVV offset r).bind fun x =>
      .ok (⟨pVV, x.1, cow x.1.name snapUnit⟩, x.2) := rfl

theorem vvReadUnit_cons {pVV1 : VV} : vvReadUnit e cow offset snapUnit (pVV1 :: parents) pVV r =
    (lockAt e false pVV offset r).bind fun x =>
      if cow x.1.name snapUnit then .ok (⟨pVV, x.1, true⟩, x.2)
      else vvReadUnit e cow offset snapUnit parents pVV1 x.2 := rfl

theorem vvReadUnit_used (h : vvReadUnit e cow offset snapUnit parents pVV r = .ok (src, r'))
    (hright : AllRight r') : AllRight r := by
  induction parents generalizing pVV r with
  | nil =>
      obtain ⟨⟨d, r₁⟩, h₁, h₂⟩ := except_bind_ok (vvReadUnit_nil ▸ h)
      cases h₂
      exact lockAt_used h₁ hright
  | cons pVV1 parents ih =>
      obtain ⟨⟨d, r₁⟩, h₁, h₂⟩ := except_bind_ok (vvReadUnit_cons ▸ h)
      refine lockAt_used h₁ ?_
      dsimp only at h₂
      split_ifs at h₂
      · cases h₂
        exact hright
      · exact ih h₂

/-- A read of a unit that goes well is at the last of its places. -/
theorem vvReadUnit_after (h : LockedAt num false r cur n)
    (hok : vvReadUnit e cow offset snapUnit parents pVV r = .ok (src, r')) (hright : AllRight r') :
    LockedAt num false r' (lastPlace cur (unitPlaces cow offset snapUnit parents pVV))
      (n + changes cur (unitPlaces cow offset snapUnit parents pVV)) := by
  induction parents generalizing pVV r cur n with
  | nil =>
      obtain ⟨⟨d, r₁⟩, h₁, h₂⟩ := except_bind_ok (vvReadUnit_nil ▸ hok)
      cases h₂
      exact (lockAt_after h h₁ hright).1
  | cons pVV1 parents ih =>
      obtain ⟨⟨d, r₁⟩, h₁, h₂⟩ := except_bind_ok (vvReadUnit_cons ▸ hok)
      have hright₁ : AllRight r₁ := by
        dsimp only at h₂
        split_ifs at h₂
        · cases h₂
          exact hright
        · exact vvReadUnit_used h₂ hright
      obtain ⟨hat, hname, -⟩ := lockAt_after h h₁ hright₁
      dsimp only at h₂
      rw [hname] at h₂
      rw [unitPlaces, changes, ← Nat.add_assoc]
      split_ifs at h₂ with hcow
      · cases h₂
        rw [if_pos hcow]
        exact hat
      · rw [if_neg hcow]
        exact ih hat h₂

/-- A read of a unit goes well if and only if its places fit. -/
theorem vvReadUnit_iff (e : VVEnv) (cow : DHashCOW) (snapUnit : ℕ) (parents : List VV) (pVV : VV)
    (offset : ℕ) (h : LockedAt num false r cur n) :
    (∃ src r', vvReadUnit e cow offset snapUnit parents pVV r = .ok (src, r') ∧ AllRight r') ↔
      AllRight r ∧ Fits (gives e false) num cur n (unitPlaces cow offset snapUnit parents pVV) := by
  induction parents generalizing pVV r cur n with
  | nil =>
      have hlock := lockAt_iff e pVV offset h
      simp only [unitPlaces, Fits, and_true]
      rw [← hlock]
      constructor
      · rintro ⟨src, r', hok, hright⟩
        obtain ⟨⟨d, r₁⟩, h₁, h₂⟩ := except_bind_ok (vvReadUnit_nil ▸ hok)
        cases h₂
        exact ⟨d, _, h₁, hright⟩
      · rintro ⟨d, r', hok, hright⟩
        refine ⟨⟨pVV, d, cow d.name snapUnit⟩, r', ?_, hright⟩
        rw [vvReadUnit_nil, hok]
        rfl
  | cons pVV1 parents ih =>
      have hlock := lockAt_iff e pVV offset h
      rw [unitPlaces, Fits, ← and_assoc, ← and_assoc, and_assoc (a := AllRight r), ← hlock]
      constructor
      · rintro ⟨src, r', hok, hright⟩
        have hbefore := hok
        obtain ⟨⟨d, r₁⟩, h₁, h₂⟩ := except_bind_ok (vvReadUnit_cons ▸ hok)
        have hright₁ : AllRight r₁ := by
          dsimp only at h₂
          split_ifs at h₂
          · cases h₂
            exact hright
          · exact vvReadUnit_used h₂ hright
        obtain ⟨hat, hname, -⟩ := lockAt_after h h₁ hright₁
        refine ⟨⟨d, r₁, h₁, hright₁⟩, ?_⟩
        dsimp only at h₂
        rw [hname] at h₂
        split_ifs at h₂ with hcow
        · rw [if_pos hcow]
          trivial
        · rw [if_neg hcow]
          exact ((ih pVV1 hat).mp ⟨src, r', h₂, hright⟩).2
      · rintro ⟨⟨d, r₁, h₁, hright₁⟩, hrest⟩
        obtain ⟨hat, hname, -⟩ := lockAt_after h h₁ hright₁
        by_cases hcow : cow (place pVV offset) snapUnit = true
        · refine ⟨⟨pVV, d, true⟩, r₁, ?_, hright₁⟩
          rw [vvReadUnit_cons, h₁, Except.bind, hname, if_pos hcow]
        · rw [if_neg hcow] at hrest
          obtain ⟨src, r', hok, hright⟩ := (ih pVV1 hat).mpr ⟨hright₁, hrest⟩
          refine ⟨src, r', ?_, hright⟩
          rw [vvReadUnit_cons, h₁, Except.bind, hname, if_neg hcow]
          exact hok

variable {ps : List (ℕ × ℕ)} {srcs : List (ℕ × ℕ × UnitSource)}

theorem vvReadPieces_cons {off len : ℕ} : vvReadPieces e cow pVV parents ((off, len) :: ps) r =
    (vvReadUnit e cow off (off / SNAP_UNIT_SIZE) parents pVV r).bind fun x =>
      (vvReadPieces e cow pVV parents ps x.2).bind fun y => .ok ((off, len, x.1) :: y.1, y.2) := rfl

theorem vvReadPieces_used (h : vvReadPieces e cow pVV parents ps r = .ok (srcs, r'))
    (hright : AllRight r') : AllRight r := by
  induction ps generalizing r srcs with
  | nil =>
      cases h
      exact hright
  | cons p ps ih =>
      obtain ⟨off, len⟩ := p
      obtain ⟨⟨src, r₁⟩, h₁, h⟩ := except_bind_ok (vvReadPieces_cons ▸ h)
      obtain ⟨⟨srcs', r₂⟩, h₂, h⟩ := except_bind_ok h
      cases h
      exact vvReadUnit_used h₁ (ih h₂)

theorem vvReadPieces_iff (e : VVEnv) (cow : DHashCOW) (pVV : VV) (parents : List VV)
    (ps : List (ℕ × ℕ)) (h : LockedAt num false r cur n) :
    (∃ srcs r', vvReadPieces e cow pVV parents ps r = .ok (srcs, r') ∧ AllRight r') ↔
      AllRight r ∧ Fits (gives e false) num cur n (readPlaces cow pVV parents ps) := by
  induction ps generalizing r cur n with
  | nil =>
      constructor
      · rintro ⟨_, _, hok, hright⟩
        cases hok
        exact ⟨hright, trivial⟩
      · rintro ⟨hright, -⟩
        exact ⟨[], r, rfl, hright⟩
  | cons p ps ih =>
      obtain ⟨off, len⟩ := p
      have hunit := vvReadUnit_iff e cow (off / SNAP_UNIT_SIZE) parents pVV off h
      have hplaces : readPlaces cow pVV parents ((off, len) :: ps) =
          unitPlaces cow off (off / SNAP_UNIT_SIZE) parents pVV ++ readPlaces cow pVV parents ps :=
        List.flatMap_cons
      rw [hplaces, fits_append, ← and_assoc, ← hunit]
      constructor
      · rintro ⟨_, r', hok, hright⟩
        obtain ⟨⟨src, r₁⟩, h₁, hok⟩ := except_bind_ok (vvReadPieces_cons ▸ hok)
        obtain ⟨⟨srcs', r₂⟩, h₂, hok⟩ := except_bind_ok hok
        cases hok
        have hright₁ := vvReadPieces_used h₂ hright
        have hat := vvReadUnit_after h h₁ hright₁
        exact ⟨⟨src, r₁, h₁, hright₁⟩, ((ih hat).mp ⟨srcs', r₂, h₂, hright⟩).2⟩
      · rintro ⟨⟨src, r₁, h₁, hright₁⟩, hrest⟩
        have hat := vvReadUnit_after h h₁ hright₁
        obtain ⟨srcs', r₂, h₂, hright⟩ := (ih hat).mpr ⟨hright₁, hrest⟩
        refine ⟨(off, len, src) :: srcs', r₂, ?_, hright⟩
        rw [vvReadPieces_cons, h₁, Except.bind, h₂]
        rfl

theorem vvReadPieces_after (h : LockedAt num false r cur n)
    (hok : vvReadPieces e cow pVV parents ps r = .ok (srcs, r')) (hright : AllRight r') :
    LockedAt num false r' (lastPlace cur (readPlaces cow pVV parents ps))
      (n + changes cur (readPlaces cow pVV parents ps)) := by
  induction ps generalizing r cur n srcs with
  | nil =>
      cases hok
      exact h
  | cons p ps ih =>
      obtain ⟨off, len⟩ := p
      obtain ⟨⟨src, r₁⟩, h₁, hok⟩ := except_bind_ok (vvReadPieces_cons ▸ hok)
      obtain ⟨⟨srcs', r₂⟩, h₂, hok⟩ := except_bind_ok hok
      cases hok
      have hat := vvReadUnit_after h h₁ (vvReadPieces_used h₂ hright)
      have hplaces : readPlaces cow pVV parents ((off, len) :: ps) =
          unitPlaces cow off (off / SNAP_UNIT_SIZE) parents pVV ++ readPlaces cow pVV parents ps :=
        List.flatMap_cons
      have hlast : lastPlace cur (unitPlaces cow off (off / SNAP_UNIT_SIZE) parents pVV ++
          readPlaces cow pVV parents ps) =
          lastPlace (lastPlace cur (unitPlaces cow off (off / SNAP_UNIT_SIZE) parents pVV))
            (readPlaces cow pVV parents ps) := List.foldl_append
      rw [hplaces, changes_append, hlast, ← Nat.add_assoc]
      exact ih hat h₂

/-! ### The end of a table -/

theorem lockedAt_init (write : Bool) (pVV : VV) (length offset : ℕ) :
    LockedAt (vsdLockInit pVV length offset).lock.lIDlgNum write (vsdLockInit pVV length offset)
      none 0 where
  size := rfl
  latest := rfl
  group := by simp [vsdLockInit]
  own := by simp [vsdLockInit]
  count := rfl
  room := Nat.zero_le _
  taken := rfl
  released := rfl

theorem foldlM_unlock (ds : List VSDlg) (r : VSDRun) :
    (ds.map some).foldlM unlockEntry r = .ok { r with released := r.released ++ ds } := by
  induction ds generalizing r with
  | nil => simp [pure, Except.pure]
  | cons d ds ih =>
      rw [List.map_cons, List.foldlM_cons]
      have hunlock : unlockEntry r (some d) = .ok (vUnlock d r) := rfl
      rw [hunlock]
      have hrest := ih (vUnlock d r)
      simp only [vUnlock, List.append_assoc, List.singleton_append] at hrest
      exact hrest

theorem LockedAt.term (h : LockedAt num write r cur n) :
    vsdLockTerm r = .ok { r with released := r.taken } := by
  have hfold := foldlM_unlock r.taken r
  rw [h.released, List.nil_append] at hfold
  unfold vsdLockTerm
  rw [h.taken]
  exact hfold

theorem LockedAt.right_iff (h : LockedAt num write r cur n) :
    VSDRun.Right { r with released := r.taken } ↔ AllRight r := by
  refine ⟨fun hr => hr.used, fun hr => ⟨hr, ?_, List.Perm.refl _⟩⟩
  change r.lock.lPDlgTab.length ≤ r.lock.lIDlgNum
  rw [h.count, h.size]
  exact h.room

theorem unlock_used {o : List (Option VSDlg)} (h : o.foldlM unlockEntry r = .ok r') :
    r'.used = r.used := by
  induction o generalizing r with
  | nil =>
      cases h
      rfl
  | cons x o ih =>
      rw [List.foldlM_cons] at h
      obtain ⟨r₁, h₁, h₂⟩ := except_bind_ok h
      cases x with
      | none => cases h₁
      | some d =>
          cases h₁
          have hused := ih h₂
          exact hused

/-- The condition on a row of reads under one table. -/
def ReadFits (e : VVEnv) (cow : DHashCOW) (pVV : VV) (parents : List VV) (length offset : ℕ)
    (ps : List (ℕ × ℕ)) : Prop :=
  PlacesFit (gives e false) (vsdLockInit pVV length offset).lock.lIDlgNum
    (readPlaces cow pVV parents ps)

theorem vvReadLocked_iff (e : VVEnv) (cow : DHashCOW) (pVV : VV) (parents : List VV)
    (length offset : ℕ) (ps : List (ℕ × ℕ)) :
    (∃ x, vvReadLocked e cow pVV parents length offset ps = .ok x ∧ x.2.Right) ↔
      ReadFits e cow pVV parents length offset ps := by
  have hinit := lockedAt_init false pVV length offset
  have hall : AllRight (vsdLockInit pVV length offset) := by simp [AllRight, vsdLockInit]
  have hpieces := vvReadPieces_iff e cow pVV parents ps hinit
  rw [fits_none_iff] at hpieces
  constructor
  · rintro ⟨⟨srcs, r'⟩, hok, hright⟩
    obtain ⟨⟨srcs', r₁⟩, h₁, hok⟩ := except_bind_ok hok
    obtain ⟨r₂, h₂, hok⟩ := except_bind_ok hok
    cases hok
    have hused := unlock_used h₂
    exact (hpieces.mp ⟨_, r₁, h₁, fun u hu => hright.used u (hused ▸ hu)⟩).2
  · intro hfit
    obtain ⟨srcs, r', hok, hright⟩ := hpieces.mpr ⟨hall, hfit⟩
    have hat := vvReadPieces_after hinit hok hright
    refine ⟨(srcs, { r' with released := r'.taken }), ?_, hat.right_iff.mpr hright⟩
    have hrun : vvReadLocked e cow pVV parents length offset ps =
        (vvReadPieces e cow pVV parents ps (vsdLockInit pVV length offset)).bind fun x =>
          (vsdLockTerm x.2).bind fun r => .ok (x.1, r) := rfl
    rw [hrun, hok, Except.bind, hat.term]
    rfl

/-! ### The units of a range -/

theorem snapPieces_bounds {fuel off stop : ℕ} : ∀ p ∈ snapPieces fuel off stop, off ≤ p.1 ∧ p.1 < stop := by
  induction fuel generalizing off with
  | zero => simp [snapPieces]
  | succ fuel ih =>
      intro p hp
      unfold snapPieces at hp
      split_ifs at hp with hlt
      · rcases List.mem_cons.mp hp with rfl | hp
        · exact ⟨le_refl _, hlt⟩
        · have hb := ih p hp
          exact ⟨by omega, hb.2⟩
      · cases hp

/-- Each piece is in a later unit than the one before. -/
theorem snapPieces_ascend (fuel off stop : ℕ) :
    (snapPieces fuel off stop).Pairwise fun a b => a.1 / SNAP_UNIT_SIZE < b.1 / SNAP_UNIT_SIZE := by
  induction fuel generalizing off with
  | zero => simp [snapPieces]
  | succ fuel ih =>
      unfold snapPieces
      split_ifs with hlt
      · refine List.Pairwise.cons ?_ (ih _)
        intro q hq
        have hb := snapPieces_bounds q hq
        unfold SNAP_UNIT_SIZE at hb ⊢
        dsimp only at hb ⊢
        split_ifs at hb <;> omega
      · exact List.Pairwise.nil

/-- A unit that is copied is read as one piece. -/
theorem pieces_unit (snapUnit : ℕ) :
    pieces SNAP_UNIT_SIZE (SNAP_UNIT_SIZE * snapUnit) =
      [(SNAP_UNIT_SIZE * snapUnit, SNAP_UNIT_SIZE)] := by
  have hdiv : SNAP_UNIT_SIZE * snapUnit / SNAP_UNIT_SIZE = snapUnit :=
    Nat.mul_div_cancel_left snapUnit (by decide)
  have hfuel : SNAP_UNIT_SIZE = 1022 + 1 + 1 := by decide
  have hpieces : ∀ fuel, snapPieces (fuel + 1 + 1) (SNAP_UNIT_SIZE * snapUnit)
      (SNAP_UNIT_SIZE * snapUnit + SNAP_UNIT_SIZE) =
        [(SNAP_UNIT_SIZE * snapUnit, SNAP_UNIT_SIZE)] := by
    intro fuel
    have hend : (snapUnit + 1) * SNAP_UNIT_SIZE = SNAP_UNIT_SIZE * snapUnit + SNAP_UNIT_SIZE := by
      rw [Nat.add_mul, Nat.one_mul, Nat.mul_comm]
    have hpos : 0 < SNAP_UNIT_SIZE := by decide
    rw [snapPieces, if_pos (by omega), hdiv]
    simp only [hend, if_neg (Nat.lt_irrefl _), Nat.add_sub_cancel_left]
    rw [snapPieces, if_neg (by omega)]
  unfold pieces
  have hrw := hpieces 1022
  rw [← hfuel] at hrw
  exact hrw

theorem unitPlaces_congr {cow' : DHashCOW} (h : ∀ m, cow m snapUnit = cow' m snapUnit) :
    unitPlaces cow offset snapUnit parents pVV = unitPlaces cow' offset snapUnit parents pVV := by
  induction parents generalizing pVV with
  | nil => rfl
  | cons pVV1 parents ih => rw [unitPlaces, unitPlaces, h, ih]

/-- A place of a higher group is not left for a lower one, so the place changes at
most once for each group. -/
theorem changes_le {name : String} {hi g : ℕ} {qs : List (String × ℕ)}
    (hname : ∀ q ∈ qs, q.1 = name) (hsort : qs.Pairwise fun a b => a.2 ≤ b.2)
    (hlo : ∀ q ∈ qs, g ≤ q.2) (hhi : ∀ q ∈ qs, q.2 ≤ hi) (hg : g ≤ hi) :
    changes (some (name, g)) qs ≤ hi - g := by
  induction qs generalizing g with
  | nil => exact Nat.zero_le _
  | cons q qs ih =>
      obtain ⟨hq, hsort⟩ := List.pairwise_cons.mp hsort
      have hqname := hname q List.mem_cons_self
      have hqlo := hlo q List.mem_cons_self
      have hqhi := hhi q List.mem_cons_self
      have hqeq : q = (name, q.2) := Prod.ext hqname rfl
      have hrest := ih (fun x hx => hname x (List.mem_cons_of_mem q hx)) hsort hq
        (fun x hx => hhi x (List.mem_cons_of_mem q hx)) hqhi
      rw [← hqeq] at hrest
      rw [changes]
      split_ifs with heq
      · omega
      · have hne : g ≠ q.2 := fun hgq => heq (by rw [hgq, ← hqeq])
        omega

theorem changes_none_le (name : String) {lo hi : ℕ} {qs : List (String × ℕ)}
    (hname : ∀ q ∈ qs, q.1 = name) (hsort : qs.Pairwise fun a b => a.2 ≤ b.2)
    (hlo : ∀ q ∈ qs, lo ≤ q.2) (hhi : ∀ q ∈ qs, q.2 ≤ hi) : changes none qs ≤ hi - lo + 1 := by
  cases qs with
  | nil => exact Nat.zero_le _
  | cons q qs =>
      obtain ⟨hq, hsort⟩ := List.pairwise_cons.mp hsort
      have hqlo := hlo q List.mem_cons_self
      have hqhi := hhi q List.mem_cons_self
      have hqeq : q = (name, q.2) := Prod.ext (hname q List.mem_cons_self) rfl
      have hrest := changes_le (fun x hx => hname x (List.mem_cons_of_mem q hx)) hsort hq
        (fun x hx => hhi x (List.mem_cons_of_mem q hx)) hqhi
      rw [← hqeq] at hrest
      rw [changes, if_neg (by simp)]
      omega

/-- The groups a request goes through in its own volume fit the table. -/
theorem placesFit_own (given : String × ℕ → Bool) {length : ℕ} {qs : List (ℕ × ℕ)}
    (hqs : qs.Sublist (pieces length offset)) (hgiven : ∀ q ∈ qs, given (place pVV q.1) = true) :
    PlacesFit given (vsdLockInit pVV length offset).lock.lIDlgNum
      (qs.map fun q => place pVV q.1) := by
  have hmono : ∀ a b : ℕ, a ≤ b → vs2dlg (b2vs pVV a) ≤ vs2dlg (b2vs pVV b) :=
    fun a b hab => Nat.div_le_div_right (Nat.div_le_div_right hab)
  have hbounds : ∀ q ∈ qs, offset ≤ q.1 ∧ q.1 < offset + length :=
    fun q hq => snapPieces_bounds q (hqs.subset hq)
  have hascend := (snapPieces_ascend length offset (offset + length)).sublist hqs
  refine ⟨?_, ?_, ?_⟩
  · intro p hp
    obtain ⟨q, hq, rfl⟩ := List.mem_map.mp hp
    exact hgiven q hq
  · refine List.Pairwise.isChain ?_
    rw [List.pairwise_map]
    refine hascend.imp ?_
    intro a b _ hg
    exact Prod.ext rfl hg
  · refine changes_none_le (pVV.dbName) ?_ ?_ ?_ ?_
    · intro p hp
      obtain ⟨q, -, rfl⟩ := List.mem_map.mp hp
      rfl
    · rw [List.pairwise_map]
      refine hascend.imp ?_
      intro a b hab
      exact hmono _ _ (le_of_lt (Nat.lt_of_div_lt_div hab))
    · intro p hp
      obtain ⟨q, hq, rfl⟩ := List.mem_map.mp hp
      exact hmono _ _ (hbounds q hq).1
    · intro p hp
      obtain ⟨q, hq, rfl⟩ := List.mem_map.mp hp
      exact hmono _ _ (le_of_lt (hbounds q hq).2)

end PaxosSolutions.VV
