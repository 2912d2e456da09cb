import PaxosSolutions.VV.LockTable

/-!
# Writes and requests under segment locks

A write locks the groups of its own volume, in write mode and in order, so its
table is always right; the reads it makes to copy units have tables of their
own. A request is right if and only if the places of its reads fit.
-/
namespace PaxosSolutions.VV
open Lib

variable {e : VVEnv} {num n length : ℕ} {r r' : VSDRun} {cur : Option (String × ℕ)} {pVV : VV}
  {offset : ℕ} {d : VSDlg} {cow : DHashCOW} {parents : List VV} {ps : List (ℕ × ℕ)}

/-! ### Writes -/

/-- The units a write gets to: the first that has no segment is the last. -/
def reached (e : VVEnv) (pVV : VV) : List (ℕ × ℕ) → List (ℕ × ℕ)
  | [] => []
  | p :: ps =>
      p :: if e.vsAlloc (place pVV p.1) (b2vs pVV p.1) then reached e pVV ps else []

/-- The units of which a part is copied from the parent. -/
def copied (e : VVEnv) (cow : DHashCOW) (pVV : VV) (ps : List (ℕ × ℕ)) : List (ℕ × ℕ) :=
  (reached e pVV ps).filter fun p => e.vsAlloc (place pVV p.1) (b2vs pVV p.1) &&
    !cow (place pVV p.1) (p.1 / SNAP_UNIT_SIZE) && leavesPart p.1 p.2

/-- The condition on the read of a unit that is copied. -/
def CopyFits (e : VVEnv) (cow : DHashCOW) (pVV : VV) : List VV → ℕ × ℕ → Prop
  | [], _ => True
  | pVV1 :: parents, p =>
      ReadFits e (cow.put (place pVV p.1) (p.1 / SNAP_UNIT_SIZE)) pVV1 parents SNAP_UNIT_SIZE
        (SNAP_UNIT_SIZE * (p.1 / SNAP_UNIT_SIZE))
        (pieces SNAP_UNIT_SIZE (SNAP_UNIT_SIZE * (p.1 / SNAP_UNIT_SIZE)))

theorem reached_sublist (e : VVEnv) (pVV : VV) (ps : List (ℕ × ℕ)) : (reached e pVV ps).Sublist ps := by
  induction ps with
  | nil => exact List.Sublist.refl []
  | cons p ps ih =>
      unfold reached
      split_ifs
      · exact ih.cons_cons p
      · exact (List.nil_sublist ps).cons_cons p

theorem copyFits_congr {cow' : DHashCOW} {p : ℕ × ℕ}
    (h : ∀ m, cow m (p.1 / SNAP_UNIT_SIZE) = cow' m (p.1 / SNAP_UNIT_SIZE)) :
    CopyFits e cow pVV parents p ↔ CopyFits e cow' pVV parents p := by
  cases parents with
  | nil => exact Iff.rfl
  | cons pVV1 parents =>
      have hput : ∀ m, cow.put (place pVV p.1) (p.1 / SNAP_UNIT_SIZE) m (p.1 / SNAP_UNIT_SIZE) =
          cow'.put (place pVV p.1) (p.1 / SNAP_UNIT_SIZE) m (p.1 / SNAP_UNIT_SIZE) := by
        intro m
        simp only [DHashCOW.put, h]
      have hunit : SNAP_UNIT_SIZE * (p.1 / SNAP_UNIT_SIZE) / SNAP_UNIT_SIZE = p.1 / SNAP_UNIT_SIZE :=
        Nat.mul_div_cancel_left _ (by decide)
      simp only [CopyFits, ReadFits, readPlaces, pieces_unit, List.flatMap_cons, List.flatMap_nil,
        hunit, unitPlaces_congr hput]

theorem copied_congr {cow' : DHashCOW}
    (h : ∀ p ∈ ps, ∀ m, cow m (p.1 / SNAP_UNIT_SIZE) = cow' m (p.1 / SNAP_UNIT_SIZE)) :
    copied e cow pVV ps = copied e cow' pVV ps := by
  refine List.filter_congr ?_
  intro p hp
  rw [h p ((reached_sublist e pVV ps).subset hp)]

/-- The run of a write and the reads it made are right so far. -/
def WriteRight (w : VVWriteRun) : Prop := AllRight w.run ∧ ∀ c ∈ w.copies, c.Right

/-- What a write does with a unit behind its lock. -/
def writeAt (e : VVEnv) (pVV : VV) (parents : List VV) (off len : ℕ) (w : VVWriteRun)
    (pDlg : VSDlg) (r : VSDRun) : Except VVFault VVWriteRun :=
  if e.vsAlloc pDlg.name (b2vs pVV off) = false then .ok { w with run := r, failed := true }
  else
    match parents with
    | [] => .ok { w with run := r }
    | pVV1 :: parents =>
        if w.cow pDlg.name (off / SNAP_UNIT_SIZE) then .ok { w with run := r }
        else
          let cow := w.cow.put pDlg.name (off / SNAP_UNIT_SIZE)
          if leavesPart off len then
            (vvReadRequest e cow pVV1 parents SNAP_UNIT_SIZE
              (SNAP_UNIT_SIZE * (off / SNAP_UNIT_SIZE))).bind fun x =>
                .ok { w with cow := cow, run := r, copies := w.copies ++ [x.2] }
          else .ok { w with cow := cow, run := r }

theorem vvWriteUnit_eq {off len : ℕ} {w : VVWriteRun} :
    vvWriteUnit e pVV parents off len w =
      (lockAt e true pVV off w.run).bind fun x => writeAt e pVV parents off len w x.1 x.2 := by
  cases parents <;> rfl

theorem vvWritePieces_cons {off len : ℕ} {w : VVWriteRun} :
    vvWritePieces e pVV parents ((off, len) :: ps) w =
      (vvWriteUnit e pVV parents off len w).bind fun w =>
        if w.failed then .ok w else vvWritePieces e pVV parents ps w := rfl

variable {off len : ℕ} {w w' : VVWriteRun}

/-- A write of a unit keeps the lock it has, and no other unit is copied. -/
structure Written (e : VVEnv) (pVV : VV) (off : ℕ) (m : String × ℕ) (r : VSDRun)
    (w w' : VVWriteRun) : Prop where
  run : w'.run = r
  failed : w'.failed = !e.vsAlloc m (b2vs pVV off)
  cow : ∀ m u, u ≠ off / SNAP_UNIT_SIZE → w'.cow m u = w.cow m u
  copies : w.copies ⊆ w'.copies

theorem writeAt_written (hf : w.failed = false)
    (h : writeAt e pVV parents off len w d r = .ok w') : Written e pVV off d.name r w w' := by
  have hput : ∀ m u, u ≠ off / SNAP_UNIT_SIZE →
      w.cow.put d.name (off / SNAP_UNIT_SIZE) m u = w.cow m u := by
    intro m u hu
    simp [DHashCOW.put, hu]
  unfold writeAt at h
  by_cases halloc : e.vsAlloc d.name (b2vs pVV off) = false
  · rw [if_pos halloc] at h
    cases h
    exact ⟨rfl, by simp [halloc], fun _ _ _ => rfl, List.Subset.refl _⟩
  · have halloc' : e.vsAlloc d.name (b2vs pVV off) = true := by simpa using halloc
    rw [if_neg halloc] at h
    cases parents with
    | nil =>
        cases h
        exact ⟨rfl, by simp [halloc', hf], fun _ _ _ => rfl, List.Subset.refl _⟩
    | cons pVV1 parents =>
        dsimp only at h
        split_ifs at h with hcow hpart
        · cases h
          exact ⟨rfl, by simp [halloc', hf], fun _ _ _ => rfl, List.Subset.refl _⟩
        · obtain ⟨x, -, h⟩ := except_bind_ok h
          cases h
          exact ⟨rfl, by simp [halloc', hf], hput, List.subset_append_left _ _⟩
        · cases h
          exact ⟨rfl, by simp [halloc', hf], hput, List.Subset.refl _⟩

theorem writeAt_iff (len : ℕ) (r : VSDRun) (hname : d.name = place pVV off) :
    (∃ w', writeAt e pVV parents off len w d r = .ok w' ∧ ∀ c ∈ w'.copies, c.Right) ↔
      (∀ c ∈ w.copies, c.Right) ∧
        ((e.vsAlloc (place pVV off) (b2vs pVV off) && !w.cow (place pVV off) (off / SNAP_UNIT_SIZE) &&
          leavesPart off len) = true → CopyFits e w.cow pVV parents (off, len)) := by
  unfold writeAt
  rw [hname]
  by_cases halloc : e.vsAlloc (place pVV off) (b2vs pVV off) = false
  · simp [halloc]
  · have halloc' : e.vsAlloc (place pVV off) (b2vs pVV off) = true := by simpa using halloc
    rw [if_neg halloc]
    cases parents with
    | nil => simp [CopyFits]
    | cons pVV1 parents =>
        dsimp only
        split_ifs with hcow hpart
        · simp [hcow]
        · have hread := vvReadLocked_iff e
            (w.cow.put (place pVV off) (off / SNAP_UNIT_SIZE)) pVV1
            parents SNAP_UNIT_SIZE (SNAP_UNIT_SIZE * (off / SNAP_UNIT_SIZE))
            (pieces SNAP_UNIT_SIZE (SNAP_UNIT_SIZE * (off / SNAP_UNIT_SIZE)))
          simp only [CopyFits, halloc', Bool.not_eq_true] at hcow ⊢
          rw [hcow, hpart, ← hread]
          simp only [Bool.not_false, Bool.and_self, true_implies]
          constructor
          · rintro ⟨w', h, hright⟩
            obtain ⟨x, hx, h⟩ := except_bind_ok h
            cases h
            exact ⟨fun c hc => hright c (List.mem_append_left _ hc), x, hx,
              hright x.2 (List.mem_append_right _ (List.mem_singleton.mpr rfl))⟩
          · rintro ⟨hc, x, hx, hright⟩
            refine ⟨{ w with
              cow := w.cow.put (place pVV off) (off / SNAP_UNIT_SIZE)
              run := r
              copies := w.copies ++ [x.2] }, by rw [vvReadRequest, hx]; rfl, ?_⟩
            intro c hmem
            rcases List.mem_append.mp hmem with hmem | hmem
            · exact hc c hmem
            · rw [List.mem_singleton.mp hmem]
              exact hright
        · simp [hpart]

theorem writePlaces_cons (p : ℕ × ℕ) : (reached e pVV (p :: ps)).map (fun q => place pVV q.1) =
    place pVV p.1 ::
      if e.vsAlloc (place pVV p.1) (b2vs pVV p.1) then
        (reached e pVV ps).map fun q => place pVV q.1 else [] := by
  rw [reached]
  split_ifs <;> rfl

theorem copied_cons (p : ℕ × ℕ) (h : e.vsAlloc (place pVV p.1) (b2vs pVV p.1) = true) :
    copied e cow pVV (p :: ps) =
      (if (e.vsAlloc (place pVV p.1) (b2vs pVV p.1) && !cow (place pVV p.1) (p.1 / SNAP_UNIT_SIZE) &&
        leavesPart p.1 p.2) = true then [p] else []) ++ copied e cow pVV ps := by
  unfold copied
  rw [reached, if_pos h, List.filter_cons]
  split_ifs <;> rfl

theorem copied_end (p : ℕ × ℕ) (h : e.vsAlloc (place pVV p.1) (b2vs pVV p.1) = false) :
    copied e cow pVV (p :: ps) = [] := by
  unfold copied
  simp [reached, h]

theorem vvWritePieces_back (h : vvWritePieces e pVV parents ps w = .ok w') (hf : w.failed = false)
    (hright : WriteRight w') : WriteRight w := by
  induction ps generalizing w with
  | nil =>
      cases h
      exact hright
  | cons p ps ih =>
      obtain ⟨off, len⟩ := p
      obtain ⟨w₁, h₁, h₂⟩ := except_bind_ok (vvWritePieces_cons ▸ h)
      obtain ⟨⟨d, r₁⟩, hlock, h₁⟩ := except_bind_ok (vvWriteUnit_eq ▸ h₁)
      have hwritten := writeAt_written hf h₁
      have hright₁ : WriteRight w₁ := by
        split_ifs at h₂ with hfail
        · cases h₂
          exact hright
        · exact ih h₂ (by simpa using hfail)
      have hrun : w₁.run = r₁ := hwritten.run
      refine ⟨lockAt_used hlock (hrun ▸ hright₁.1), ?_⟩
      exact fun c hc => hright₁.2 c (hwritten.copies hc)

/-- The units behind one that was written are copied as before. -/
theorem Written.later {m : String × ℕ} (h : Written e pVV off m r w w')
    (hlater : ∀ q ∈ ps, off / SNAP_UNIT_SIZE < q.1 / SNAP_UNIT_SIZE) :
    (∀ q ∈ VV.copied e w'.cow pVV ps, CopyFits e w'.cow pVV parents q) ↔
      ∀ q ∈ VV.copied e w.cow pVV ps, CopyFits e w.cow pVV parents q := by
  have hsame : ∀ q ∈ ps, ∀ n, w'.cow n (q.1 / SNAP_UNIT_SIZE) = w.cow n (q.1 / SNAP_UNIT_SIZE) :=
    fun q hq n => h.cow n _ (Nat.ne_of_gt (hlater q hq))
  rw [copied_congr hsame]
  refine forall₂_congr ?_
  intro q hq
  exact copyFits_congr (hsame q ((reached_sublist e pVV ps).subset (List.mem_of_mem_filter hq)))

/-- A write goes well if and only if the places of its units fit, and the reads of
the units that are copied go well. -/
theorem vvWritePieces_iff (e : VVEnv) (pVV : VV) (parents : List VV)
    (hat : LockedAt num true w.run cur n) (hf : w.failed = false)
    (hasc : ps.Pairwise fun a b => a.1 / SNAP_UNIT_SIZE < b.1 / SNAP_UNIT_SIZE) :
    (∃ w', vvWritePieces e pVV parents ps w = .ok w' ∧ WriteRight w') ↔
      WriteRight w ∧
        Fits (gives e true) num cur n ((reached e pVV ps).map fun q => place pVV q.1) ∧
        ∀ p ∈ copied e w.cow pVV ps, CopyFits e w.cow pVV parents p := by
  induction ps generalizing w cur n with
  | nil =>
      constructor
      · rintro ⟨w', h, hright⟩
        cases h
        exact ⟨hright, trivial, by simp [copied, reached]⟩
      · rintro ⟨hright, -⟩
        exact ⟨w, rfl, hright⟩
  | cons p ps ih =>
      obtain ⟨off, len⟩ := p
      obtain ⟨hlater, hasc⟩ := List.pairwise_cons.mp hasc
      have hlock := lockAt_iff e pVV off hat
      rw [writePlaces_cons, Fits]
      constructor
      · rintro ⟨w', h, hright⟩
        obtain ⟨w₁, h₁, h₂⟩ := except_bind_ok (vvWritePieces_cons ▸ h)
        obtain ⟨⟨d, r₁⟩, hl, h₁⟩ := except_bind_ok (vvWriteUnit_eq ▸ h₁)
        have hwritten := writeAt_written hf h₁
        have hright₁ : WriteRight w₁ := by
          split_ifs at h₂ with hfail
          · cases h₂
            exact hright
          · exact vvWritePieces_back h₂ (by simpa using hfail) hright
        have hrun : w₁.run = r₁ := hwritten.run
        obtain ⟨hat₁, hname, hr⟩ := lockAt_after hat hl (hrun ▸ hright₁.1)
        obtain ⟨-, htold, hfit⟩ := hlock.mp ⟨d, r₁, hl, hrun ▸ hright₁.1⟩
        obtain ⟨hcopies, hcopy⟩ := (writeAt_iff len r₁ hname).mp ⟨w₁, h₁, hright₁.2⟩
        have hfailed := hwritten.failed
        rw [hname] at hfailed
        cases halloc : e.vsAlloc (place pVV off) (b2vs pVV off) with
        | false =>
            refine ⟨⟨hr, hcopies⟩, ⟨htold, hfit, ?_⟩, ?_⟩
            · simp [Fits]
            · rw [copied_end _ halloc]
              simp
        | true =>
            have hok : w₁.failed = false := by rw [hfailed, halloc]; rfl
            rw [if_neg (by simp [hok])] at h₂
            rw [← hrun] at hat₁
            obtain ⟨-, hrest, hcopied⟩ := (ih hat₁ hok hasc).mp ⟨w', h₂, hright⟩
            refine ⟨⟨hr, hcopies⟩, ⟨htold, hfit, ?_⟩, ?_⟩
            · simpa using hrest
            · rw [copied_cons _ halloc]
              intro q hq
              rcases List.mem_append.mp hq with hq | hq
              · split_ifs at hq with hcond
                · rw [List.mem_singleton.mp hq]
                  exact hcopy hcond
                · cases hq
              · exact (hwritten.later hlater).mp hcopied q hq
      · rintro ⟨hright, ⟨htold, hfit, hrest⟩, hcopied⟩
        obtain ⟨d, r₁, hl, hr₁⟩ := hlock.mpr ⟨hright.1, htold, hfit⟩
        obtain ⟨hat₁, hname, -⟩ := lockAt_after hat hl hr₁
        have hhead : (e.vsAlloc (place pVV off) (b2vs pVV off) &&
            !w.cow (place pVV off) (off / SNAP_UNIT_SIZE) && leavesPart off len) = true →
              CopyFits e w.cow pVV parents (off, len) := by
          intro hcond
          have halloc : e.vsAlloc (place pVV off) (b2vs pVV off) = true := by
            simp only [Bool.and_eq_true] at hcond
            exact hcond.1.1
          refine hcopied (off, len) ?_
          rw [copied_cons _ halloc, if_pos hcond]
          exact List.mem_append_left _ (List.mem_singleton.mpr rfl)
        obtain ⟨w₁, h₁, hc₁⟩ := (writeAt_iff len r₁ hname).mpr ⟨hright.2, hhead⟩
        have hwritten := writeAt_written hf h₁
        have hrun : w₁.run = r₁ := hwritten.run
        have hfailed := hwritten.failed
        rw [hname] at hfailed
        rw [← hrun] at hat₁ hr₁
        cases halloc : e.vsAlloc (place pVV off) (b2vs pVV off) with
        | false =>
            refine ⟨w₁, ?_, hr₁, hc₁⟩
            rw [vvWritePieces_cons, vvWriteUnit_eq, hl, Except.bind, h₁, Except.bind, hfailed, halloc]
            rfl
        | true =>
            have hok : w₁.failed = false := by rw [hfailed, halloc]; rfl
            rw [if_pos halloc] at hrest
            have hlaterCopied : ∀ q ∈ copied e w₁.cow pVV ps, CopyFits e w₁.cow pVV parents q := by
              refine (hwritten.later hlater).mpr ?_
              intro q hq
              refine hcopied q ?_
              rw [copied_cons _ halloc]
              exact List.mem_append_right _ hq
            obtain ⟨w', h₂, hright'⟩ := (ih hat₁ hok hasc).mpr ⟨⟨hr₁, hc₁⟩, hrest, hlaterCopied⟩
            refine ⟨w', ?_, hright'⟩
            rw [vvWritePieces_cons, vvWriteUnit_eq, hl, Except.bind, h₁, Except.bind, hok]
            exact h₂

/-! ### Requests -/

/-- The condition on a write: the locks of its units are given, and the reads of the
units that are copied fit. -/
structure WriteFits (e : VVEnv) (cow : DHashCOW) (pVV : VV) (parents : List VV)
    (length offset : ℕ) : Prop where
  given : ∀ q ∈ reached e pVV (pieces length offset), e.vLockW (place pVV q.1) = true
  copies : ∀ p ∈ copied e cow pVV (pieces length offset), CopyFits e cow pVV parents p

/-- The condition on a request. -/
def LocksFit (e : VVEnv) (cow : DHashCOW) (cache : Option VVCache) (pVV : VV) (parents : List VV) :
    VVReq → Prop
  | .read length offset =>
      ReadFits e cow pVV parents length offset
        (cache.elim (pieces length offset) fun c => reqPieces (c.readReqs length offset))
  | .write length offset =>
      ReadFits e cow pVV parents length offset
          (cache.elim [] fun c => reqPieces (c.writeReqs length offset)) ∧
        WriteFits e cow pVV parents length offset

theorem readFits_nil : ReadFits e cow pVV parents length offset [] := by
  refine ⟨?_, List.IsChain.nil, Nat.zero_le _⟩
  simp [readPlaces]

theorem vvReadReqs_iff (e : VVEnv) (cow : DHashCOW) (pVV : VV) (parents : List VV)
    (length offset : ℕ) (reqs : List (ℕ × ℕ)) :
    (∃ rs, vvReadReqs e cow pVV parents length offset reqs = .ok rs ∧ ∀ r ∈ rs, r.Right) ↔
      ReadFits e cow pVV parents length offset (reqPieces reqs) := by
  unfold vvReadReqs
  split_ifs with hnil
  · rw [hnil]
    exact iff_of_true ⟨[], rfl, by simp⟩ readFits_nil
  · rw [← vvReadLocked_iff]
    constructor
    · rintro ⟨rs, hok, hright⟩
      obtain ⟨x, hx, rfl⟩ := except_map_ok hok
      exact ⟨x, hx, hright _ (List.mem_singleton.mpr rfl)⟩
    · rintro ⟨x, hx, hright⟩
      refine ⟨[x.2], by rw [hx]; rfl, ?_⟩
      intro r hr
      rw [List.mem_singleton.mp hr]
      exact hright

theorem vvWriteRequest_eq :
    vvWriteRequest e cow pVV parents length offset =
      (vvWritePieces e pVV parents (pieces length offset)
        ⟨cow, vsdLockInit pVV length offset, [], false⟩).bind fun w =>
          (vsdLockTerm w.run).bind fun r => .ok (r :: w.copies) := rfl

/-- A write that goes well is at one of its places. -/
theorem vvWritePieces_after (hat : LockedAt num true w.run cur n) (hf : w.failed = false)
    (h : vvWritePieces e pVV parents ps w = .ok w') (hright : WriteRight w') :
    ∃ cur' n', LockedAt num true w'.run cur' n' := by
  induction ps generalizing w cur n with
  | nil =>
      cases h
      exact ⟨cur, n, hat⟩
  | cons p ps ih =>
      obtain ⟨off, len⟩ := p
      obtain ⟨w₁, h₁, h₂⟩ := except_bind_ok (vvWritePieces_cons ▸ h)
      obtain ⟨⟨d, r₁⟩, hl, h₁⟩ := except_bind_ok (vvWriteUnit_eq ▸ h₁)
      have hrun : w₁.run = r₁ := (writeAt_written hf h₁).run
      split_ifs at h₂ with hfail
      · cases h₂
        rw [hrun]
        exact ⟨_, _, (lockAt_after hat hl (hrun ▸ hright.1)).1⟩
      · have hok : w₁.failed = false := by simpa using hfail
        have hright₁ := vvWritePieces_back h₂ hok hright
        have hat₁ := (lockAt_after hat hl (hrun ▸ hright₁.1)).1
        rw [← hrun] at hat₁
        exact ih hat₁ hok h₂

theorem vvWriteRequest_iff (e : VVEnv) (cow : DHashCOW) (pVV : VV) (parents : List VV)
    (length offset : ℕ) :
    (∃ rs, vvWriteRequest e cow pVV parents length offset = .ok rs ∧ ∀ r ∈ rs, r.Right) ↔
      WriteFits e cow pVV parents length offset := by
  have hinit := lockedAt_init true pVV length offset
  have hstart : WriteRight ⟨cow, vsdLockInit pVV length offset, [], false⟩ :=
    ⟨by simp [AllRight, vsdLockInit], by simp⟩
  have hpieces := vvWritePieces_iff e pVV parents
    (w := ⟨cow, vsdLockInit pVV length offset, [], false⟩) hinit rfl
    (snapPieces_ascend length offset (offset + length))
  rw [fits_none_iff] at hpieces
  constructor
  · rintro ⟨rs, hok, hright⟩
    obtain ⟨w', hw, hok⟩ := except_bind_ok (vvWriteRequest_eq ▸ hok)
    obtain ⟨r, hr, hok⟩ := except_bind_ok hok
    cases hok
    have hused := unlock_used hr
    have hall : AllRight w'.run :=
      fun u hu => (hright r List.mem_cons_self).used u (hused ▸ hu)
    obtain ⟨-, hfit, hcopied⟩ := hpieces.mp
      ⟨w', hw, hall, fun c hc => hright c (List.mem_cons_of_mem r hc)⟩
    exact ⟨fun q hq => hfit.given _ (List.mem_map_of_mem hq), hcopied⟩
  · rintro ⟨hgiven, hcopied⟩
    have hfit := placesFit_own (gives e true) (reached_sublist e pVV (pieces length offset)) hgiven
    obtain ⟨w', hw, hright⟩ := hpieces.mpr ⟨hstart, hfit, hcopied⟩
    obtain ⟨cur', n', hat⟩ := vvWritePieces_after hinit rfl hw hright
    refine ⟨{ w'.run with released := w'.run.taken } :: w'.copies, ?_, ?_⟩
    · rw [vvWriteRequest_eq]
      unfold pieces
      rw [hw, Except.bind, hat.term]
      rfl
    · intro r hr
      rcases List.mem_cons.mp hr with rfl | hr
      · exact hat.right_iff.mpr hright.1
      · exact hright.2 r hr

/-- The tables of locks of a request are right if and only if its places fit. -/
theorem vvRequest_right_iff (e : VVEnv) (cow : DHashCOW) (cache : Option VVCache) (pVV : VV)
    (parents : List VV) (req : VVReq) :
    (∃ rs, vvRequest e cow cache pVV parents req = .ok rs ∧ ∀ r ∈ rs, r.Right) ↔
      LocksFit e cow cache pVV parents req := by
  cases req with
  | read length offset =>
      cases cache with
      | some c => exact vvReadReqs_iff e cow pVV parents length offset _
      | none =>
          have hread := vvReadLocked_iff e cow pVV parents length offset (pieces length offset)
          refine Iff.trans ?_ hread
          constructor
          · rintro ⟨rs, hok, hright⟩
            obtain ⟨x, hx, rfl⟩ := except_map_ok hok
            exact ⟨x, hx, hright _ (List.mem_singleton.mpr rfl)⟩
          · rintro ⟨x, hx, hright⟩
            refine ⟨[x.2], congrArg (Except.map _) hx, ?_⟩
            intro r hr
            rw [List.mem_singleton.mp hr]
            exact hright
  | write length offset =>
      cases cache with
      | none =>
          have hwrite := vvWriteRequest_iff e cow pVV parents length offset
          exact hwrite.trans (and_iff_right readFits_nil).symm
      | some c =>
          have hrun : vvRequest e cow (some c) pVV parents (.write length offset) =
              (vvReadReqs e cow pVV parents length offset (c.writeReqs length offset)).bind fun rs =>
                (vvWriteRequest e cow pVV parents length offset).bind fun ws => .ok (rs ++ ws) := rfl
          have hreads := vvReadReqs_iff e cow pVV parents length offset
            (c.writeReqs length offset)
          have hwrite := vvWriteRequest_iff e cow pVV parents length offset
          have hfit : LocksFit e cow (some c) pVV parents (.write length offset) ↔
              ReadFits e cow pVV parents length offset (reqPieces (c.writeReqs length offset)) ∧
                WriteFits e cow pVV parents length offset := Iff.rfl
          rw [hfit, ← hreads, ← hwrite, hrun]
          constructor
          · rintro ⟨_, hok, hright⟩
            obtain ⟨rs, hrs, hok⟩ := except_bind_ok hok
            obtain ⟨ws, hws, hok⟩ := except_bind_ok hok
            cases hok
            exact ⟨⟨rs, hrs, fun r hr => hright r (List.mem_append_left _ hr)⟩,
              ws, hws, fun r hr => hright r (List.mem_append_right _ hr)⟩
          · rintro ⟨⟨rs, hrs, hr⟩, ws, hws, hw⟩
            refine ⟨rs ++ ws, by rw [hrs, Except.bind, hws]; rfl, ?_⟩
            intro r hmem
            rcases List.mem_append.mp hmem with hmem | hmem
            · exact hr r hmem
            · exact hw r hmem

/-- Where all volumes have one stripe count, a read fits if the locks of its own
volume are given and no unit is left to a parent. -/
theorem readFits_iff_copied
    (hparents : ∀ v ∈ parents, v.vvStripes = pVV.vvStripes ∧ v.dbName ≠ pVV.dbName) :
    ReadFits e cow pVV parents length offset (pieces length offset) ↔
      (∀ p ∈ pieces length offset, (e.vLockR (place pVV p.1)).isSome = true) ∧
        (parents = [] ∨
          ∀ p ∈ pieces length offset, cow (place pVV p.1) (p.1 / SNAP_UNIT_SIZE) = true) := by
  constructor
  · intro hfit
    refine ⟨?_, ?_⟩
    · intro p hp
      refine hfit.given _ (List.mem_flatMap.mpr ⟨p, hp, ?_⟩)
      cases parents <;> exact List.mem_cons_self
    · cases parents with
      | nil => exact .inl rfl
      | cons pVV1 parents =>
          right
          intro p hp
          by_contra hcow
          obtain ⟨hstripes, hname⟩ := hparents pVV1 List.mem_cons_self
          obtain ⟨qs, rs, hsplit⟩ := List.append_of_mem hp
          obtain ⟨ps, hps⟩ : ∃ ps, unitPlaces cow p.1 (p.1 / SNAP_UNIT_SIZE) (pVV1 :: parents) pVV =
              place pVV p.1 :: place pVV1 p.1 :: ps := by
            rw [unitPlaces, if_neg hcow]
            cases parents <;> exact ⟨_, rfl⟩
          have htold := hfit.told
          unfold readPlaces at htold
          rw [hsplit, List.flatMap_append, List.flatMap_cons, hps] at htold
          have hnext := (List.isChain_cons_cons.mp htold.right_of_append.left_of_append).1
          have hsame : (place pVV p.1).2 = (place pVV1 p.1).2 := by
            simp only [place, b2vs, VV.vsSize, hstripes]
          exact hname (congrArg Prod.fst (hnext hsame)).symm
  · rintro ⟨hgiven, hcopied⟩
    have hplaces : readPlaces cow pVV parents (pieces length offset) =
        (pieces length offset).map fun q => place pVV q.1 := by
      unfold readPlaces
      rw [List.map_eq_flatMap]
      refine List.flatMap_congr ?_
      intro p hp
      cases parents with
      | nil => rfl
      | cons pVV1 parents =>
          rcases hcopied with hnil | hcopied
          · cases hnil
          · rw [unitPlaces, if_pos (hcopied p hp)]
    unfold ReadFits
    rw [hplaces]
    exact placesFit_own _ (List.Sublist.refl _) hgiven

/-- Every lock is given, and every segment is to be had. -/
def vvEnvFull : VVEnv where
  vLockR := fun _ => some .r
  vLockW := fun _ => true
  vsAlloc := fun _ _ => true

/-- A byte of a volume is read that no write was made to since its snapshot. The
snapshot is looked up under the lock object of the volume. -/
theorem vvRead_parent_not_right :
    ¬∀ (pVV : VV) (parents : List VV) (req : VVReq),
      ∃ rs, vvRequest vvEnvFull (fun _ _ => false) none pVV parents req = .ok rs ∧
        ∀ r ∈ rs, r.Right := by
  intro h
  obtain ⟨rs, hrs, hright⟩ := h ⟨"vol", 1⟩ [⟨"snap", 1⟩] (.read 1 0)
  have hbad : (vvRequest vvEnvFull (fun _ _ => false) none ⟨"vol", 1⟩ [⟨"snap", 1⟩]
      (.read 1 0)).toOption.map (fun rs => rs.all fun r => r.used.all fun u =>
        decide (u.pDlg.vvName = u.vvName)) = some false := by decide +kernel
  have hgood : (rs.all fun r => r.used.all fun u => decide (u.pDlg.vvName = u.vvName)) = true := by
    rw [List.all_eq_true]
    intro r hr
    rw [List.all_eq_true]
    intro u hu
    exact decide_eq_true ((hright r hr).used u hu).1
  rw [hrs, Except.toOption, Option.map_some, hgood] at hbad
  exact absurd hbad (by decide)

end PaxosSolutions.VV
