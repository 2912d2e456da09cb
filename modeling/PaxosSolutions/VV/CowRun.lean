import PaxosSolutions.VV.CowKept

/-!
# Writes to a volume with a parent

The requests of a write wait until all its units are marked. What the segments have after
them is what was written, over what the volume had, in every unit that is recorded.
-/
namespace PaxosSolutions.Cow
open Lib

/-! ### Bytes in segments -/

section Bytes
variable {pVV : VV} {parent : ℕ → UInt8} {env : CowEnv} {segs : ℕ × ℕ × ℕ → UInt8} {data : List UInt8}
  {rq : SegmentReq} {off len b : ℕ} {p : ℕ × ℕ}

/-- The segments after the requests -/
def ioBytes (pIo : CowIo) (segs : ℕ × ℕ × ℕ → UInt8) : ℕ × ℕ × ℕ → UInt8 :=
  pIo.foldl (fun segs r => storeReq r.1 r.2 segs) segs

theorem ioBytes_append {pIo : CowIo} :
    ioBytes (pIo ++ [(rq, data)]) segs = storeReq rq data (ioBytes pIo segs) := by
  unfold ioBytes
  rw [List.foldl_append]
  rfl

/-- A request for a range of the volume changes the bytes of the range. -/
theorem storeReq_place (h : rq.Straight pVV off len) : storeReq rq data segs (stripePlace pVV b) =
    if off ≤ b ∧ b < off + len then data.getD (b - off) 0 else segs (stripePlace pVV b) := by
  unfold storeReq
  rw [h.whole]
  by_cases hb : off ≤ b ∧ b < off + len
  · have hplace := h.bytes (b - off) (by omega)
    rw [Nat.add_sub_cancel' hb.1] at hplace
    rw [if_pos hb, hplace]
    dsimp only
    rw [if_pos ⟨rfl, rfl, Nat.le_add_right _ _, by omega⟩, Nat.add_sub_cancel_left]
  · rw [if_neg hb]
    refine if_neg ?_
    rintro ⟨hvs, hsi, hle, hlt⟩
    obtain ⟨k, hk⟩ := Nat.exists_eq_add_of_le hle
    have hplace := h.bytes k (by omega)
    have hsame : stripePlace pVV (off + k) = stripePlace pVV b := by
      rw [hplace, ← hvs, ← hsi, ← hk]
    have heq := stripePlace_injective pVV hsame
    omega

theorem writeSnapUnit_vs (pVV : VV) (copied : Bool) (pBuff off len : ℕ) :
    (writeSnapUnit pVV copied pBuff off len).vs.vsVS = b2vs pVV off := by
  cases copied <;> rfl

/-- A byte of a merged unit -/
theorem mergedUnit_getD (hb : b / SNAP_UNIT_SIZE = p.1 / SNAP_UNIT_SIZE) :
    (mergedUnit parent env p data).getD (b - SNAP_UNIT_SIZE * (p.1 / SNAP_UNIT_SIZE)) 0 =
      if p.1 ≤ b ∧ b < p.1 + p.2 then data.getD (b - p.1) 0
      else if env.readParent (p.1 / SNAP_UNIT_SIZE) then parent b else env.pBUFF b := by
  have hmul := Nat.mul_div_le b SNAP_UNIT_SIZE
  have hmod := Nat.div_add_mod b SNAP_UNIT_SIZE
  have hlt := Nat.mod_lt b (show 0 < SNAP_UNIT_SIZE by decide)
  rw [hb] at hmul hmod
  unfold mergedUnit
  rw [List.getD_eq_getElem?_getD, List.getElem?_map, List.getElem?_range' (by omega), Option.map_some,
    Option.getD_some, Nat.one_mul, Nat.add_sub_cancel' hmul]

end Bytes

/-! ### The pieces of a write -/

/-- The units that are recorded are those of the volume, and the others are the parent's. -/
structure Content (pVV : VV) (parent : ℕ → UInt8) (s : CowState) (cont vol : ℕ → UInt8) : Prop where
  groups : ∀ b, s.Recorded pVV (b / SNAP_UNIT_SIZE) → b2vs pVV b ∈ s.wrTbl
  own : ∀ b, s.Recorded pVV (b / SNAP_UNIT_SIZE) → cont b = vol b
  others : ∀ b, ¬s.Recorded pVV (b / SNAP_UNIT_SIZE) → vol b = parent b

/-- A write that began at `s₀`, where the volume is to have the bytes `vol` after its requests. -/
structure Writing (pVV : VV) (parent : ℕ → UInt8) (env : CowEnv) (n : ℕ) (s₀ s : CowState) (pIo : CowIo)
    (vol : ℕ → UInt8) : Prop where
  book : Book pVV s
  lock : ∀ d, s.lock d = .w n ∨ s.lock d = s₀.lock d ∧ s.tabs d = s₀.tabs d
  mono : ∀ u, s₀.Recorded pVV u → s.Recorded pVV u
  tbl : ∀ vs ∈ s₀.wrTbl, vs ∈ s.wrTbl
  alloc : ∀ vs ∈ s.wrTbl, vs ∈ s₀.wrTbl ∨ env.vsAlloc vs = true
  sameSegs : s.segs = s₀.segs
  sameVol : s.vol = s₀.vol
  reqs : ∀ r ∈ pIo, r.1.vs.vsVS ∈ s.wrTbl ∧ s.lock (vs2dlg r.1.vs.vsVS) = .w n
  content : Content pVV parent s (fun b => ioBytes pIo s.segs (stripePlace pVV b)) vol

/-- The bytes of a piece over those before -/
def overPiece (p : ℕ × ℕ) (data : List UInt8) (vol : ℕ → UInt8) : ℕ → UInt8 :=
  fun b => if p.1 ≤ b ∧ b < p.1 + p.2 then data.getD (b - p.1) 0 else vol b

section Piece
variable {pVV : VV} {parent : ℕ → UInt8} {env : CowEnv} {n : ℕ} {s₀ s t : CowState} {pIo : CowIo}
  {vol : ℕ → UInt8} {p : ℕ × ℕ} {data : List UInt8}

/-- The nodes that give up a lock in the midst of a write are those that had it before. -/
theorem Writing.handedOver (hw : Writing pVV parent env n s₀ s pIo vol) {d : ℕ} (h : HandedOver s₀ env d n) :
    HandedOver s env d n := by
  intro m hm hne
  rcases hw.lock d with hmine | ⟨hlock, htabs⟩
  · rw [hmine] at hm
    exact absurd (List.mem_singleton.mp hm) hne
  · rw [hlock] at hm
    rw [htabs]
    exact h m hm hne

/-- The lock for a piece -/
theorem Writing.vLockW (hw : Writing pVV parent env n s₀ s pIo vol) {d : ℕ} (h : HandedOver s₀ env d n) :
    ∃ t, s.vLockW pVV env d n = t ∧ Writing pVV parent env n s₀ t pIo vol ∧ SameUnits pVV s t ∧
      t.lock d = .w n := by
  obtain ⟨t, ht, hbook, hsame, hothers, hlock⟩ := vLockW_kept hw.book (hw.handedOver h)
  have hmine : ∀ d', s.lock d' = .w n → t.lock d' = .w n := by
    intro d' hd'
    by_cases hd : d' = d
    · rw [hd]
      exact hlock
    · rw [hothers.lock d' hd]
      exact hd'
  refine ⟨t, ht, ?_, hsame, hlock⟩
  constructor
  · exact hbook
  · intro d'
    by_cases hd : d' = d
    · rw [hd]
      exact .inl hlock
    · rw [hothers.lock d' hd, hothers.tabs d' hd]
      exact hw.lock d'
  · exact fun u hu => (hsame.recorded u).mpr (hw.mono u hu)
  · rw [hsame.wrTbl]
    exact hw.tbl
  · rw [hsame.wrTbl]
    exact hw.alloc
  · exact hsame.segs.trans hw.sameSegs
  · exact hsame.vol.trans hw.sameVol
  · intro r hr
    obtain ⟨hmem, hw'⟩ := hw.reqs r hr
    rw [hsame.wrTbl]
    exact ⟨hmem, hmine _ hw'⟩
  · have hc := hw.content
    refine ⟨?_, ?_, ?_⟩
    · intro b hb
      rw [hsame.wrTbl]
      exact hc.groups b ((hsame.recorded _).mp hb)
    · intro b hb
      rw [hsame.segs]
      exact hc.own b ((hsame.recorded _).mp hb)
    · intro b hb
      exact hc.others b fun h => hb ((hsame.recorded _).mpr h)

/-- The segments for a piece -/
theorem Writing.allocVS (hw : Writing pVV parent env n s₀ s pIo vol) {vs : ℕ}
    (hlock : s.lock (vs2dlg vs) = .w n) (hok : vs ∈ s₀.wrTbl ∨ env.vsAlloc vs = true)
    (hdb : vs ∈ s₀.wrTbl ∨ env.dbAllocVS vs = true) :
    ∃ t, s.allocVS env n vs = (true, t) ∧ Writing pVV parent env n s₀ t pIo vol ∧ t.lock = s.lock ∧
      (∀ u, t.Recorded pVV u ↔ s.Recorded pVV u) ∧ vs ∈ t.wrTbl ∧ (vs ∈ s₀.wrTbl → SameUnits pVV s t) := by
  by_cases hvs : vs ∈ s.wrTbl
  · exact ⟨s, allocVS_there hw.book hlock hvs, hw, rfl, fun _ => Iff.rfl, hvs, fun _ => .refl s⟩
  · have hnot : vs ∉ s₀.wrTbl := fun h => hvs (hw.tbl vs h)
    obtain ⟨t, halloc, hbook, hlocks, hothers, hrec, htbl, hsegs, hvol⟩ := allocVS_new hw.book hlock hvs
      (hok.resolve_left hnot) (hdb.resolve_left hnot)
    have hmem : ∀ v ∈ s.wrTbl, v ∈ t.wrTbl := by
      intro v hv
      rw [htbl]
      exact List.mem_append_left _ hv
    refine ⟨t, halloc, ?_, hlocks, hrec, ?_, fun h => absurd h hnot⟩
    · constructor
      · exact hbook
      · intro d
        rw [hlocks]
        by_cases hd : d = vs2dlg vs
        · rw [hd]
          exact .inl hlock
        · rw [hothers.tabs d hd]
          exact hw.lock d
      · exact fun u hu => (hrec u).mpr (hw.mono u hu)
      · exact fun v hv => hmem v (hw.tbl v hv)
      · intro v hv
        rw [htbl] at hv
        rcases List.mem_append.mp hv with hv | hv
        · exact hw.alloc v hv
        · rw [List.mem_singleton.mp hv]
          exact hok
      · exact hsegs.trans hw.sameSegs
      · exact hvol.trans hw.sameVol
      · intro r hr
        obtain ⟨hin, hmine⟩ := hw.reqs r hr
        rw [hlocks]
        exact ⟨hmem _ hin, hmine⟩
      · have hc := hw.content
        refine ⟨?_, ?_, ?_⟩
        · intro b hb
          exact hmem _ (hc.groups b ((hrec _).mp hb))
        · intro b hb
          rw [hsegs]
          exact hc.own b ((hrec _).mp hb)
        · intro b hb
          exact hc.others b fun h => hb ((hrec _).mpr h)
    · rw [htbl]
      exact List.mem_append_right _ (List.mem_singleton_self vs)

/-- A unit is marked, and a request for a range of it waits. -/
theorem Writing.add {u off len : ℕ} {rq : SegmentReq} {d : List UInt8}
    (hw : Writing pVV parent env n s₀ s pIo vol) (hm : Marked pVV (unitDlg pVV u) u s t)
    (hlock : s.lock (unitDlg pVV u) = .w n) (hst : rq.Straight pVV off len)
    (hvs : rq.vs.vsVS ∈ s.wrTbl ∧ s.lock (vs2dlg rq.vs.vsVS) = .w n)
    (hgroup : ∀ b, b / SNAP_UNIT_SIZE = u → b2vs pVV b ∈ s.wrTbl)
    (hrange : ∀ b, off ≤ b → b < off + len → b / SNAP_UNIT_SIZE = u)
    (hpiece : ∀ b, p.1 ≤ b → b < p.1 + p.2 → b / SNAP_UNIT_SIZE = u)
    (hbytes : ∀ b, b / SNAP_UNIT_SIZE = u → (if off ≤ b ∧ b < off + len then d.getD (b - off) 0
      else ioBytes pIo s.segs (stripePlace pVV b)) = overPiece p data vol b) :
    Writing pVV parent env n s₀ t (pIo ++ [(rq, d)]) (overPiece p data vol) := by
  have hc := hw.content
  constructor
  · exact hm.book
  · intro d'
    rw [hm.lock]
    by_cases hd : d' = unitDlg pVV u
    · rw [hd]
      exact .inl hlock
    · rw [hm.others.tabs d' hd]
      exact hw.lock d'
  · exact fun v hv => (hm.recorded v).mpr (.inl (hw.mono v hv))
  · rw [hm.wrTbl]
    exact hw.tbl
  · rw [hm.wrTbl]
    exact hw.alloc
  · exact hm.segs.trans hw.sameSegs
  · exact hm.vol.trans hw.sameVol
  · intro r hr
    rw [hm.wrTbl, hm.lock]
    rcases List.mem_append.mp hr with hr | hr
    · exact hw.reqs r hr
    · rw [List.mem_singleton.mp hr]
      exact hvs
  · refine ⟨?_, ?_, ?_⟩
    · intro b hb
      rw [hm.wrTbl]
      rcases (hm.recorded _).mp hb with hb | hb
      · exact hc.groups b hb
      · exact hgroup b hb
    · intro b hb
      rw [hm.segs, ioBytes_append, storeReq_place hst]
      by_cases hu : b / SNAP_UNIT_SIZE = u
      · exact hbytes b hu
      · have hold := ((hm.recorded _).mp hb).resolve_right hu
        unfold overPiece
        rw [if_neg fun h => hu (hrange b h.1 h.2), if_neg fun h => hu (hpiece b h.1 h.2)]
        exact hc.own b hold
    · intro b hb
      obtain ⟨hold, hu⟩ := not_or.mp (mt (hm.recorded _).mpr hb)
      unfold overPiece
      rw [if_neg fun h => hu (hpiece b h.1 h.2)]
      exact hc.others b hold

/-- The end of `VVWriteRequestSnapUnit` -/
theorem Writing.mark (data : List UInt8) (hw : Writing pVV parent env n s₀ s pIo vol)
    (hlock : s.lock (vs2dlg (b2vs pVV p.1)) = .w n) (hvs : b2vs pVV p.1 ∈ s.wrTbl)
    (hin : p.1 % SNAP_UNIT_SIZE + p.2 ≤ SNAP_UNIT_SIZE) (hoff : p.1 < 2 ^ 64)
    (hread : s₀.Recorded pVV (p.1 / SNAP_UNIT_SIZE) ∨ partOfUnit p = false ∨
      env.readParent (p.1 / SNAP_UNIT_SIZE) = true) :
    ∃ m t, s.markUnit (vs2dlg (b2vs pVV p.1)) n (p.1 / SNAP_UNIT_SIZE) = .ok (m, t) ∧
      Writing pVV parent env n s₀ t (pIo ++ [if m && partOfUnit p then
        (writeSnapUnit pVV true 0 p.1 p.2, mergedUnit parent env p data)
        else (writeSnapUnit pVV false 0 p.1 p.2, data)]) (overPiece p data vol) ∧
      (s₀.Recorded pVV (p.1 / SNAP_UNIT_SIZE) → SameUnits pVV s t) := by
  have hdlg := unitDlg_eq pVV p.1
  have hsmall : p.1 / SNAP_UNIT_SIZE < 2 ^ 64 := Nat.lt_of_le_of_lt (Nat.div_le_self _ _) hoff
  have hunit : ∀ b, b / SNAP_UNIT_SIZE = p.1 / SNAP_UNIT_SIZE → b2vs pVV b ∈ s.wrTbl := by
    intro b hb
    rw [← b2vs_unit pVV b, hb, b2vs_unit]
    exact hvs
  have hpiece : ∀ b, p.1 ≤ b → b < p.1 + p.2 → b / SNAP_UNIT_SIZE = p.1 / SNAP_UNIT_SIZE := by
    intro b hle hlt
    unfold SNAP_UNIT_SIZE at hin ⊢
    omega
  have hreq : ∀ c, (writeSnapUnit pVV c 0 p.1 p.2).vs.vsVS ∈ s.wrTbl ∧
      s.lock (vs2dlg (writeSnapUnit pVV c 0 p.1 p.2).vs.vsVS) = .w n := by
    intro c
    rw [writeSnapUnit_vs]
    exact ⟨hvs, hlock⟩
  rw [← hdlg] at hlock ⊢
  by_cases hrec : s.Recorded pVV (p.1 / SNAP_UNIT_SIZE)
  · obtain ⟨t, hmark, hm⟩ := markUnit_there hw.book hlock rfl hsmall hrec
    refine ⟨false, t, hmark, ?_, ?_⟩
    · rw [Bool.false_and, if_neg Bool.false_ne_true]
      refine hw.add hm hlock (writeSnapUnit_straight pVV 0 hin) (hreq false) hunit hpiece hpiece ?_
      intro b hb
      unfold overPiece
      by_cases hpos : p.1 ≤ b ∧ b < p.1 + p.2
      · rw [if_pos hpos, if_pos hpos]
      · rw [if_neg hpos, if_neg hpos]
        exact hw.content.own b (hb ▸ hrec)
    · intro _
      refine ⟨?_, hm.wrTbl, hm.segs, hm.vol⟩
      intro v
      rw [hm.recorded]
      refine or_iff_left_of_imp ?_
      rintro rfl
      exact hrec
  · have hnot : ¬s₀.Recorded pVV (p.1 / SNAP_UNIT_SIZE) := fun h => hrec (hw.mono _ h)
    obtain ⟨t, hmark, hm⟩ := markUnit_new hw.book hlock rfl hsmall hrec
    refine ⟨true, t, hmark, ?_, fun h => absurd h hnot⟩
    rw [Bool.true_and]
    have hwhole : ∀ b, b / SNAP_UNIT_SIZE = p.1 / SNAP_UNIT_SIZE →
        SNAP_UNIT_SIZE * (p.1 / SNAP_UNIT_SIZE) ≤ b ∧
          b < SNAP_UNIT_SIZE * (p.1 / SNAP_UNIT_SIZE) + SNAP_UNIT_SIZE := by
      intro b hb
      have hmod := Nat.div_add_mod b SNAP_UNIT_SIZE
      have hlt := Nat.mod_lt b (show 0 < SNAP_UNIT_SIZE by decide)
      rw [hb] at hmod
      omega
    cases hpart : partOfUnit p with
    | true =>
        have hparent : env.readParent (p.1 / SNAP_UNIT_SIZE) = true := by
          rcases hread with h | h | h
          · exact absurd h hnot
          · rw [hpart] at h
            cases h
          · exact h
        rw [if_pos rfl]
        refine hw.add hm hlock (writeSnapUnit_copied pVV 0 p.1 p.2) (hreq true) hunit ?_ hpiece ?_
        · intro b hle hlt
          unfold SNAP_UNIT_SIZE at hle hlt ⊢
          omega
        · intro b hb
          rw [if_pos (hwhole b hb), mergedUnit_getD hb, hparent, if_pos rfl]
          unfold overPiece
          rw [hw.content.others b (hb ▸ hrec)]
    | false =>
        rw [if_neg Bool.false_ne_true]
        refine hw.add hm hlock (writeSnapUnit_straight pVV 0 hin) (hreq false) hunit hpiece hpiece ?_
        intro b hb
        obtain ⟨hle, hlt⟩ := hwhole b hb
        obtain ⟨hfirst, hlast⟩ := Bool.or_eq_false_iff.mp hpart
        have hfirst' := of_decide_eq_false hfirst
        have hlast' := of_decide_eq_false hlast
        have hmod := Nat.div_add_mod p.1 SNAP_UNIT_SIZE
        have hpos : p.1 ≤ b ∧ b < p.1 + p.2 := by omega
        unfold overPiece
        rw [if_pos hpos, if_pos hpos]

/-- A piece for which there is no memory for the segments -/
theorem Writing.unit_fails (data : List UInt8) (hw : Writing pVV parent env n s₀ s pIo vol)
    (hhand : HandedOver s₀ env (vs2dlg (b2vs pVV p.1)) n) (hvs : b2vs pVV p.1 ∉ s₀.wrTbl)
    (hno : env.vsAlloc (b2vs pVV p.1) = false) :
    ∃ t, vvWriteRequestSnapUnit pVV parent env n p data s pIo = .ok (false, t, pIo) ∧ Book pVV t ∧
      SameUnits pVV s t := by
  obtain ⟨t, ht, hwt, hsame, hlock⟩ := hw.vLockW hhand
  have hout : b2vs pVV p.1 ∉ t.wrTbl := by
    intro h
    rcases hwt.alloc _ h with h | h
    · exact hvs h
    · rw [hno] at h
      cases h
  refine ⟨t, ?_, hwt.book, hsame⟩
  unfold vvWriteRequestSnapUnit
  dsimp only
  rw [ht, allocVS_none hwt.book hlock hout hno]
  rfl

/-- A piece that is done -/
theorem Writing.unit_done (data : List UInt8) (hw : Writing pVV parent env n s₀ s pIo vol)
    (hhand : HandedOver s₀ env (vs2dlg (b2vs pVV p.1)) n)
    (hok : b2vs pVV p.1 ∈ s₀.wrTbl ∨ env.vsAlloc (b2vs pVV p.1) = true)
    (hdb : b2vs pVV p.1 ∈ s₀.wrTbl ∨ env.dbAllocVS (b2vs pVV p.1) = true)
    (hin : p.1 % SNAP_UNIT_SIZE + p.2 ≤ SNAP_UNIT_SIZE) (hoff : p.1 < 2 ^ 64)
    (hread : s₀.Recorded pVV (p.1 / SNAP_UNIT_SIZE) ∨ partOfUnit p = false ∨
      env.readParent (p.1 / SNAP_UNIT_SIZE) = true) :
    ∃ t pIo', vvWriteRequestSnapUnit pVV parent env n p data s pIo = .ok (true, t, pIo') ∧
      Writing pVV parent env n s₀ t pIo' (overPiece p data vol) ∧
      (b2vs pVV p.1 ∈ s₀.wrTbl → s₀.Recorded pVV (p.1 / SNAP_UNIT_SIZE) → SameUnits pVV s t) := by
  obtain ⟨s₁, hs₁, hw₁, hsame₁, hlock₁⟩ := hw.vLockW hhand
  obtain ⟨s₂, hs₂, hw₂, hlocks, -, hvs, hsame₂⟩ := hw₁.allocVS hlock₁ hok hdb
  obtain ⟨m, t, hmark, hwt, hsame⟩ := hw₂.mark data (by rw [hlocks]; exact hlock₁) hvs hin hoff hread
  refine ⟨t, _, ?_, hwt, fun h h' => (hsame₁.trans (hsame₂ h)).trans (hsame h')⟩
  unfold vvWriteRequestSnapUnit
  dsimp only
  rw [hs₁, hs₂]
  change Except.map _ (s₂.markUnit _ n _) = _
  rw [hmark]
  refine congrArg Except.ok ?_
  dsimp only
  split_ifs
  · rfl
  · rfl

end Piece

/-! ### The loop of a write -/

/-- The bytes of a request up to the end of its next piece -/
theorem overPiece_next {vol : ℕ → UInt8} {pBuff : List UInt8} {offset cur len : ℕ} (hcur : offset ≤ cur) :
    overPiece (cur, len) ((pBuff.drop (cur - offset)).take len) (overPiece (offset, cur - offset) pBuff vol) =
      overPiece (offset, cur + len - offset) pBuff vol := by
  funext b
  unfold overPiece
  dsimp only
  by_cases hpiece : cur ≤ b ∧ b < cur + len
  · rw [if_pos hpiece, if_pos (by omega), List.getD_eq_getElem?_getD, List.getElem?_take_of_lt (by omega),
      List.getElem?_drop, List.getD_eq_getElem?_getD, show cur - offset + (b - cur) = b - offset by omega]
  · rw [if_neg hpiece]
    by_cases hbefore : offset ≤ b ∧ b < offset + (cur - offset)
    · rw [if_pos hbefore, if_pos (by omega)]
    · rw [if_neg hbefore, if_neg (by omega)]

section Loop
variable {pVV : VV} {parent : ℕ → UInt8} {env : CowEnv} {n : ℕ} {s₀ s t : CowState} {pIo : CowIo}
  {pBuff : List UInt8} {offset cur stop : ℕ} {clean : Bool}

/-- A loop is done, or it ends at a piece with nothing recorded and no segments more. -/
theorem writeUnits_kept (fuel : ℕ) (hw : Writing pVV parent env n s₀ s pIo
      (overPiece (offset, cur - offset) pBuff s₀.vol))
    (hclean : clean = true → SameUnits pVV s₀ s)
    (hsafe : PiecesSafe pVV s₀ env n clean (snapPieces fuel cur stop))
    (hcur : offset ≤ cur) (hstop : cur ≤ stop) (hfuel : stop ≤ cur + fuel) (hoff : stop ≤ 2 ^ 63) :
    ∃ r, writeUnits pVV parent env n offset pBuff (snapPieces fuel cur stop) s pIo = .ok r ∧
      (r.1 = true ∧ Writing pVV parent env n s₀ r.2.1 r.2.2 (overPiece (offset, stop - offset) pBuff s₀.vol) ∨
        r.1 = false ∧ Book pVV r.2.1 ∧ SameUnits pVV s₀ r.2.1) := by
  induction fuel generalizing s pIo cur clean with
  | zero =>
      have hend : cur = stop := by omega
      rw [hend] at hw
      exact ⟨_, rfl, .inl ⟨rfl, hw⟩⟩
  | succ fuel ih =>
      unfold snapPieces at hsafe ⊢
      by_cases hlt : cur < stop
      · rw [if_pos hlt] at hsafe ⊢
        dsimp only at hsafe ⊢
        generalize hlen : (if stop < (cur / SNAP_UNIT_SIZE + 1) * SNAP_UNIT_SIZE then stop - cur
          else (cur / SNAP_UNIT_SIZE + 1) * SNAP_UNIT_SIZE - cur) = len at hsafe ⊢
        have hpos : 0 < len ∧ cur + len ≤ stop ∧ cur % SNAP_UNIT_SIZE + len ≤ SNAP_UNIT_SIZE := by
          unfold SNAP_UNIT_SIZE at hlen ⊢
          split_ifs at hlen
          all_goals omega
        obtain ⟨hhand, hrest⟩ := hsafe
        rw [writeUnits]
        by_cases hno : b2vs pVV cur ∉ s₀.wrTbl ∧ env.vsAlloc (b2vs pVV cur) = false
        · rw [if_pos hno] at hrest
          obtain ⟨t, ht, hbook, hsame⟩ := hw.unit_fails (p := (cur, len))
            ((pBuff.drop (cur - offset)).take len) hhand hno.1 hno.2
          rw [ht]
          exact ⟨_, rfl, .inr ⟨rfl, hbook, (hclean hrest).trans hsame⟩⟩
        · rw [if_neg hno] at hrest
          obtain ⟨hdb, hread, hrest⟩ := hrest
          have hok : b2vs pVV cur ∈ s₀.wrTbl ∨ env.vsAlloc (b2vs pVV cur) = true := by
            by_contra h
            obtain ⟨h, h'⟩ := not_or.mp h
            exact hno ⟨h, Bool.eq_false_iff.mpr h'⟩
          obtain ⟨t, pIo', ht, hwt, hsame⟩ := hw.unit_done (p := (cur, len))
            ((pBuff.drop (cur - offset)).take len) hhand hok hdb hpos.2.2 (by omega) hread
          rw [overPiece_next hcur] at hwt
          obtain ⟨r, hr, hdone⟩ := ih hwt (by
            intro h
            obtain ⟨h, hrec⟩ := Bool.and_eq_true_iff.mp h
            obtain ⟨h, hvs⟩ := Bool.and_eq_true_iff.mp h
            exact (hclean h).trans (hsame (of_decide_eq_true hvs) (of_decide_eq_true hrec))) hrest (by omega)
            (by omega) (by omega)
          rw [ht]
          exact ⟨r, hr, hdone⟩
      · rw [if_neg hlt]
        have hend : cur = stop := by omega
        rw [hend] at hw
        exact ⟨_, rfl, .inl ⟨rfl, hw⟩⟩

/-- The requests go to segments that are there. -/
theorem kick_ok (hreqs : ∀ r ∈ pIo, (r.1.vs.vsVS, true) ∈ (s.tabs (vs2dlg r.1.vs.vsVS) n).vdHashListVS) :
    vvKickReqIo n pIo s = .ok { s with segs := ioBytes pIo s.segs } := by
  induction pIo generalizing s with
  | nil => rfl
  | cons r pIo ih =>
      rw [vvKickReqIo, if_pos (hreqs r List.mem_cons_self)]
      exact ih (s := { s with segs := storeReq r.1 r.2 s.segs }) fun q hq => hreqs q (List.mem_cons_of_mem r hq)

/-- A group of segments of the volume is there for the writer. -/
theorem Book.defined (hb : Book pVV s) {vs : ℕ} (hvs : vs ∈ s.wrTbl) (hlock : s.lock (vs2dlg vs) = .w n) :
    (vs, true) ∈ (s.tabs (vs2dlg vs) n).vdHashListVS := by
  have hheld := hb.held_of_w hlock
  obtain ⟨q, hq, rfl⟩ := List.mem_map.mp ((hheld.groups vs).mpr ⟨hvs, rfl⟩)
  rw [← hheld.defined q hq]
  exact hq

end Loop

/-! ### Runs -/

/-- What holds between the steps -/
structure Inv (pVV : VV) (parent : ℕ → UInt8) (s : CowState) : Prop where
  book : Book pVV s
  content : Content pVV parent s (fun b => s.segs (stripePlace pVV b)) s.vol

section Runs
variable {pVV : VV} {parent : ℕ → UInt8} {env : CowEnv} {n : ℕ} {s t : CowState}

theorem Book.result {segs : ℕ × ℕ × ℕ → UInt8} {vol : ℕ → UInt8} {ret : ℤ} (hb : Book pVV s) :
    Book pVV { s with
      segs := segs
      vol := vol
      ret := ret } :=
  ⟨hb.stripes, hb.heap, hb.small, hb.added, hb.held, hb.free, hb.read, hb.room, hb.once⟩

/-- A step that records nothing more -/
theorem Inv.same {ret : ℤ} (h : Inv pVV parent s) (hb : Book pVV t) (hsame : SameUnits pVV s t) :
    Inv pVV parent { t with ret := ret } := by
  have hc := h.content
  refine ⟨hb.result, ?_, ?_, ?_⟩
  · intro b hb'
    change b2vs pVV b ∈ t.wrTbl
    rw [hsame.wrTbl]
    exact hc.groups b ((hsame.recorded _).mp hb')
  · intro b hb'
    change t.segs _ = t.vol b
    rw [hsame.segs, hsame.vol]
    exact hc.own b ((hsame.recorded _).mp hb')
  · intro b hb'
    change t.vol b = parent b
    rw [hsame.vol]
    exact hc.others b fun h => hb' ((hsame.recorded _).mpr h)

theorem SameUnits.kept {ret : ℤ} (hb : Book pVV t) (hsame : SameUnits pVV s t) :
    s.Kept pVV { t with ret := ret } := by
  refine ⟨fun u hu => (hsame.recorded u).mpr hu, ?_⟩
  intro _
  refine ⟨fun u hu => (hsame.recorded u).mp hu, hsame.wrTbl, ?_⟩
  intro d m hm q hq
  exact (((hb.held d m hm).groups q.1).mp (List.mem_map_of_mem hq)).1

/-- A write -/
theorem write_kept {offset : ℕ} {pBuff : List UInt8} (h : Inv pVV parent s)
    (hsafe : CowSafe pVV s (.write n offset pBuff env)) :
    ∃ t, vvWriteRequest pVV parent env n offset pBuff s = .ok t ∧ Inv pVV parent t ∧ s.Kept pVV t := by
  obtain ⟨hoff, hpieces⟩ := hsafe
  have hstart : Writing pVV parent env n s s [] (overPiece (offset, offset - offset) pBuff s.vol) := by
    refine ⟨h.book, fun _ => .inr ⟨rfl, rfl⟩, fun _ hu => hu, fun _ hvs => hvs, fun _ hvs => .inl hvs, rfl, rfl,
      (fun r hr => by cases hr), ?_⟩
    have hvol : overPiece (offset, offset - offset) pBuff s.vol = s.vol := by
      funext b
      exact if_neg (by dsimp only; omega)
    rw [hvol]
    exact h.content
  obtain ⟨⟨ok, t, pIo⟩, hr, hdone⟩ := writeUnits_kept pBuff.length hstart (fun _ => .refl s) hpieces
    (Nat.le_refl offset) (Nat.le_add_right _ _) (Nat.le_refl _) hoff
  have hrun : vvWriteRequest pVV parent env n offset pBuff s = (.ok (ok, t, pIo) : Except CowFault _).bind _ :=
    congrArg (Except.bind · _) hr
  rw [hrun]
  rcases hdone with ⟨hok, hw⟩ | ⟨hok, hbook, hsame⟩
  · dsimp only at hok hw
    rw [Nat.add_sub_cancel_left] at hw
    have hkick : vvKickReqIo n pIo t = .ok { t with segs := ioBytes pIo t.segs } := by
      refine kick_ok ?_
      intro r hr
      obtain ⟨hvs, hlock⟩ := hw.reqs r hr
      exact hw.book.defined hvs hlock
    have hc := hw.content
    refine ⟨{ t with
      segs := ioBytes pIo t.segs
      vol := fun b => if offset ≤ b ∧ b < offset + pBuff.length then pBuff.getD (b - offset) 0 else t.vol b
      ret := 0 }, ?_, ⟨hw.book.result, ?_⟩, hw.mono, fun hret => absurd hret (Int.lt_irrefl 0)⟩
    · rw [hok]
      change (vvKickReqIo n pIo t).map _ = _
      rw [hkick]
      rfl
    · have hvol : (fun b => if offset ≤ b ∧ b < offset + pBuff.length then pBuff.getD (b - offset) 0 else t.vol b) =
          overPiece (offset, pBuff.length) pBuff s.vol := by
        rw [hw.sameVol]
        rfl
      refine ⟨hc.groups, ?_, ?_⟩
      · intro b hb
        refine (hc.own b hb).trans ?_
        rw [← hvol]
      · intro b hb
        refine Eq.trans ?_ (hc.others b hb)
        rw [← hvol]
  · dsimp only at hok hbook hsame
    rw [hok]
    exact ⟨_, rfl, h.same hbook hsame, hsame.kept hbook⟩

theorem CowState.Kept.of_same (hsame : SameUnits pVV s t) : s.Kept pVV { t with ret := 0 } :=
  ⟨fun u hu => (hsame.recorded u).mpr hu, fun hret => absurd hret (Int.lt_irrefl 0)⟩

/-- One step -/
theorem cowStep_kept {op : CowOp} (h : Inv pVV parent s) (hsafe : CowSafe pVV s op) :
    ∃ t, cowStep pVV parent s op = .ok t ∧ Inv pVV parent t ∧ s.Kept pVV t := by
  cases op with
  | write n offset pBuff env => exact write_kept h hsafe
  | lockR d n env =>
      obtain ⟨t, ht, hbook, hsame⟩ := vLockR_kept h.book hsafe
      refine ⟨{ t with ret := 0 }, ?_, h.same hbook hsame, .of_same hsame⟩
      rw [cowStep, ht]
  | giveUp d n env =>
      rw [cowStep]
      by_cases hn : n ∈ (s.lock d).owners
      · rw [if_pos hn]
        have hsame := giveUp_same hsafe h.book hn
        exact ⟨_, rfl, h.same (giveUp_book hsafe h.book hn) hsame, .of_same hsame⟩
      · rw [if_neg hn]
        exact ⟨_, rfl, h.same h.book (.refl s), .of_same (.refl s)⟩

theorem Inv.right (h : Inv pVV parent s) : s.Right pVV := by
  refine ⟨?_, ?_, fun d n hn => (h.book.free d n hn).added⟩
  · intro d n hn u hsmall hu
    have hheld := h.book.held d n hn
    rw [(hheld.get hsmall hu).1]
    refine or_congr_right ⟨List.count_eq_one_of_mem hheld.nodup, ?_⟩
    intro hcount
    refine List.count_pos_iff.mp ?_
    rw [hcount]
    exact Nat.one_pos
  · intro b hb
    exact ⟨h.content.groups b hb, h.content.own b hb⟩

theorem CowState.Fresh.inv (h : s.Fresh pVV parent) : Inv pVV parent s := by
  have hrec : ∀ u, s.Recorded pVV u ↔ u ∈ s.cow := by
    intro u
    unfold CowState.Recorded
    rw [h.lock]
    refine or_iff_left ?_
    rintro ⟨m, hm, -⟩
    cases hm
  refine ⟨⟨h.stripes, by rw [h.heap]; exact Nat.one_pos, h.small, ?_, ?_, ?_, ?_, ?_, ?_⟩, ?_, ?_, ?_⟩
  · intro d n u hu
    rw [h.tabs] at hu
    cases hu
  · intro d n hn
    rw [h.lock] at hn
    cases hn
  · intro d n _
    rw [h.tabs]
    exact ⟨NWGadget.DHash.numbers_init (by decide) (by decide), rfl, rfl⟩
  · intro d ns hr
    rw [h.lock] at hr
    cases hr
  · intro d n
    rw [h.tabs]
    exact Nat.le_refl 0
  · intro d
    rw [h.lock]
    exact List.nodup_nil
  · intro b hb
    rw [← b2vs_unit]
    exact h.groups _ ((hrec _).mp hb)
  · intro b hb
    exact h.own b ((hrec _).mp hb)
  · intro b hb
    exact h.others b fun hc => hb ((hrec _).mpr hc)

/-- In a run of safe steps the hash of a node with the lock has the units of the volume, each
is whole in its segments, none is lost, and a write that fails leaves none. -/
theorem cow_meets (pVV : VV) (parent : ℕ → UInt8) (s : CowState) (ops : List CowOp)
    (hfresh : s.Fresh pVV parent) (hsafe : Along (cowStep pVV parent) (CowSafe pVV) s ops) :
    s.Meets pVV parent ops := by
  have hrun : ∀ js, Along (cowStep pVV parent) (CowSafe pVV) s js →
      Result (fun _ => False) (Inv pVV parent) (run (cowStep pVV parent) s js) := by
    intro js hjs
    refine Result.along ?_ hfresh.inv hjs
    intro t op ht hop
    obtain ⟨u, hu, hinv, -⟩ := cowStep_kept ht hop
    rw [hu]
    exact hinv
  constructor
  · have hall := hrun ops hsafe
    cases hres : run (cowStep pVV parent) s ops with
    | error e =>
        rw [hres] at hall
        exact hall.elim
    | ok t =>
        rw [hres] at hall
        exact ⟨t, rfl, Inv.right hall⟩
  · intro js op ks t u hsplit ht hu
    subst hsplit
    have hpre := hrun js hsafe.take
    rw [ht] at hpre
    obtain ⟨u', hu', -, hkept⟩ := cowStep_kept hpre (hsafe.drop ht).1
    cases hu.symm.trans hu'
    exact hkept

/-- A volume of one stripe that has nothing of its own -/
def cowDemo : CowState where
  cow := []
  wrTbl := []
  segs := fun _ => 0
  vol := fun _ => 7

theorem cowDemo_fresh : cowDemo.Fresh ⟨"vv", 1⟩ fun _ => 7 where
  stripes := Nat.le_refl 1
  lock := fun _ => rfl
  tabs := fun _ _ => rfl
  heap := rfl
  small := fun _ hu => by cases hu
  groups := fun _ hu => by cases hu
  own := fun _ hb => by cases hb
  others := fun _ _ => rfl

/-- Two nodes write to two groups of segments, and a third reads. -/
theorem cow_meets_two : cowDemo.Meets ⟨"vv", 1⟩ (fun _ => 7)
    [.write 1 4194303 [1, 2] {}, .write 2 4194302 [9] {}, .lockR 0 3 {}, .giveUp 0 3 {}] :=
  cow_meets ⟨"vv", 1⟩ _ cowDemo _ cowDemo_fresh (by decide +kernel)

/-- The segments for the second unit of a write are not allocated, and its first unit stays
recorded, with none of its bytes in the segments. -/
theorem cow_not_meets : ¬∀ (pVV : VV) (parent : ℕ → UInt8) (s : CowState) (ops : List CowOp),
    s.Fresh pVV parent → s.Meets pVV parent ops := by
  intro h
  obtain ⟨⟨t, ht, hright⟩, -⟩ := h ⟨"vv", 1⟩ _ cowDemo
    [.write 1 4194303 [1, 2] { dbAllocVS := fun vs => vs = 0 }] cowDemo_fresh
  have hbad : (run (cowStep ⟨"vv", 1⟩ fun _ => 7) cowDemo
      [.write 1 4194303 [1, 2] { dbAllocVS := fun vs => vs = 0 }]).toOption.any
      (fun t => t.Recorded ⟨"vv", 1⟩ 4095 ∧ t.segs (stripePlace ⟨"vv", 1⟩ 4194302) ≠ t.vol 4194302) = true := by
    decide +kernel
  rw [ht] at hbad
  obtain ⟨hrec, hne⟩ := of_decide_eq_true hbad
  exact hne (hright.whole 4194302 hrec).2

end Runs

end PaxosSolutions.Cow
