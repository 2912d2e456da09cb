import PaxosSolutions.XjPing.SwapKept

/-!
# Tables come back as they were

What `svc_load` reads back of the swap file is what went out, and what it reads of the file
of the table is what is wanted where nothing else was in memory. So in every run of safe
steps each record that is accessed is the one that was there at the start.
-/
namespace PaxosSolutions.XjPing
open Lib

/-! ### A table comes back -/

section InGroup
variable {z td td' : SwapTbl} {live : List (ℕ × List UInt8)} {s i n k b stop hp : ℕ} {buffp : List UInt8}

theorem inGroup_in (hle : i ≤ k) (hlt : k < i + n) :
    (td.inGroup i n buffp).tRec k = (td.tRec k).swapIn (td.part buffp (k - i)) := if_pos ⟨hle, hlt⟩

theorem inGroup_out (hk : ¬(i ≤ k ∧ k < i + n)) : (td.inGroup i n buffp).tRec k = td.tRec k := if_neg hk

theorem inGroup_free : ((td.inGroup i n buffp).tRec k).recFree = (td.tRec k).recFree := by
  by_cases hk : i ≤ k ∧ k < i + n
  · rw [inGroup_in hk.1 hk.2]
    rfl
  · rw [inGroup_out hk]

/-- A buffer that is swapped out has the wanted records, each of the size of a record. -/
theorem TblKept.wanted (ht : TblKept z td live) (hs : s < td.tRecNum) (hswap : (td.tRec s).rStat.swap = true) :
    (z.wanted s).length = (td.groupEnd s - s) * td.tRecSize ∧ ∀ k, s ≤ k → k < td.groupEnd s →
      td.part (z.wanted s) (k - s) = (z.want k).bytes := by
  obtain ⟨hlt, hnum, -⟩ := SwapTbl.groupEnd_spec hs
  have hlen : ∀ k, s ≤ k → k < s + (td.groupEnd s - s) → (z.want k).bytes.length = td.tRecSize := by
    intro k hle hlt'
    have hout := ht.out (show k < td.tRecNum by omega) ((ht.group hs hle (by omega)).trans hswap)
    rw [ht.size]
    exact hout.length
  unfold SwapTbl.wanted
  rw [← ht.groupEnd]
  refine ⟨flatMap_range'_length hlen, ?_⟩
  intro k hle hlt'
  rw [SwapTbl.part_flatMap hlen (by omega), Nat.add_sub_cancel' hle]

/-- A table of which the buffer from slot `s` on comes back -/
theorem TblKept.inGroup (ht : TblKept z td live) (hs : s < td.tRecNum)
    (hfree : (td.tRec s).recFree = true) (hswap : (td.tRec s).rStat.swap = true) :
    TblKept z (td.inGroup s (td.groupEnd s - s) (z.wanted s)) live := by
  obtain ⟨hlt, hnum, hbetween, hend⟩ := SwapTbl.groupEnd_spec hs
  obtain ⟨-, hpart⟩ := ht.wanted hs hswap
  refine ⟨ht.num, ht.size, ht.recs, fun i => inGroup_free.trans (ht.free i), ?_, ?_, ?_, ?_, ?_⟩
  · intro i hi
    by_cases hg : s ≤ i ∧ i < s + (td.groupEnd s - s)
    · have hout := ht.out hi ((ht.group hs hg.1 (by omega)).trans hswap)
      rw [inGroup_in hg.1 hg.2, hpart i hg.1 (by omega)]
      refine .inl ⟨rfl, rfl, hout.length, ?_, fun h => absurd h.symm Bool.false_ne_true, rfl⟩
      intro _
      unfold SwapRec.view
      change (⟨(z.want i).bytes, (td.tRec i).rStat.used, (td.tRec i).rStat.dirty⟩ : RecView) = z.want i
      rw [hout.used, hout.dirty]
    · rw [inGroup_out hg]
      exact ht.slot i hi
  · intro i hi hnot
    rw [inGroup_free] at hnot
    have hi' : i + 1 < td.tRecNum := hi
    have hbegin : i + 1 ≠ s := by
      intro heq
      rw [heq, hfree] at hnot
      cases hnot
    have hstop : i + 1 ≠ td.groupEnd s := by
      intro heq
      have hfirst := hend (by omega)
      rw [← heq, hnot] at hfirst
      cases hfirst
    by_cases hg : s ≤ i + 1 ∧ i + 1 < s + (td.groupEnd s - s)
    · rw [inGroup_in hg.1 hg.2, inGroup_in (by omega) (by omega)]
      rfl
    · rw [inGroup_out hg, inGroup_out (by omega)]
      exact ht.same i hi' hnot
  · intro i hi hswap' hfirst
    rw [inGroup_free] at hfirst
    by_cases hg : s ≤ i ∧ i < s + (td.groupEnd s - s)
    · rw [inGroup_in hg.1 hg.2] at hswap'
      cases hswap'
    · rw [inGroup_out hg] at hswap' ⊢
      exact ht.handle i hi hswap' hfirst
  · intro i hi hswap' hnot
    rw [inGroup_free] at hnot
    by_cases hg : s ≤ i ∧ i < s + (td.groupEnd s - s)
    · rw [inGroup_in hg.1 hg.2] at hswap'
      cases hswap'
    · rw [inGroup_out hg] at hswap' ⊢
      exact ht.gone i hi hswap' hnot
  · intro _ _ _ j hj
    by_cases hg : s ≤ j ∧ j < s + (td.groupEnd s - s)
    · rw [inGroup_in hg.1 hg.2]
      exact .inl rfl
    · rw [inGroup_out hg]
      exact ht.all s hs hswap j hj

/-- Every record of the buffer passes the `assert`. -/
theorem TblKept.cksums (ht : TblKept z td live) (hs : s < td.tRecNum) (hswap : (td.tRec s).rStat.swap = true) :
    td.cksums s (td.groupEnd s - s) (z.wanted s) = true := by
  obtain ⟨-, hnum, -⟩ := SwapTbl.groupEnd_spec hs
  obtain ⟨-, hpart⟩ := ht.wanted hs hswap
  refine List.all_eq_true.mpr ?_
  intro j hj
  have hlt := List.mem_range.mp hj
  have hout := ht.out (show s + j < td.tRecNum by omega)
    ((ht.group hs (Nat.le_add_right s j) (by omega)).trans hswap)
  have hbytes := hpart (s + j) (Nat.le_add_right s j) (by omega)
  rw [Nat.add_sub_cancel_left] at hbytes
  rw [hbytes, Bool.or_eq_true, Bool.not_eq_true']
  cases hused : (td.tRec (s + j)).rStat.used with
  | false => exact .inl rfl
  | true => exact .inr (hout.cksum (hout.used ▸ hused))

/-! What comes back between two slots -/

theorem inCalls_skip (hno : ((td.tRec b).recFree && (td.tRec b).rStat.swap) = false) :
    td.inCalls b stop = td.inCalls (b + 1) stop := by
  unfold SwapTbl.inCalls
  by_cases hb : b < stop
  · rw [show stop - b = stop - (b + 1) + 1 by omega, List.range'_succ, List.filterMap_cons, hno]
    rfl
  · rw [show stop - b = 0 by omega, show stop - (b + 1) = 0 by omega]
    rfl

theorem inCalls_skips (hle : b ≤ k)
    (hno : ∀ i, b ≤ i → i < k → ((td.tRec i).recFree && (td.tRec i).rStat.swap) = false) :
    td.inCalls b stop = td.inCalls k stop := by
  induction k with
  | zero => rw [Nat.le_zero.mp hle]
  | succ k ih =>
      by_cases heq : b = k + 1
      · rw [heq]
      · rw [ih (by omega) fun i hi hlt => hno i hi (by omega)]
        exact inCalls_skip (hno k (by omega) (Nat.lt_succ_self k))

theorem inCalls_first (hb : b < stop) (hfree : (td.tRec b).recFree = true)
    (hswap : (td.tRec b).rStat.swap = true) (hhp : (td.tRec b).rHead = .handle hp) :
    td.inCalls b stop = .swapIn hp :: td.inCalls (b + 1) stop := by
  unfold SwapTbl.inCalls
  rw [show stop - b = stop - (b + 1) + 1 by omega, List.range'_succ, List.filterMap_cons, hfree, hswap, hhp]
  rfl

theorem inCalls_congr (htail : ∀ i, b ≤ i → td'.tRec i = td.tRec i) :
    td'.inCalls b stop = td.inCalls b stop := by
  unfold SwapTbl.inCalls
  refine List.filterMap_congr ?_
  intro i hi
  rw [htail i (List.mem_range'_1.mp hi).1]

end InGroup

section Load
variable {z svc svc' : SwapSvc} {t s i e b stop fuel hp : ℕ}

theorem swapInLoop_end (h : e < i) : swapInLoop t e (fuel + 1) i svc = .ok (svc, true) := by
  rw [swapInLoop]
  exact if_pos h

theorem swapInLoop_pass (h : ¬e < i)
    (hno : (((svc.tbls t).tRec i).recFree && ((svc.tbls t).tRec i).rStat.swap) = false) :
    swapInLoop t e (fuel + 1) i svc = swapInLoop t e fuel (i + 1) svc := by
  rw [swapInLoop]
  dsimp only
  rw [if_neg h, if_neg (by rw [hno]; exact Bool.false_ne_true)]

theorem swapInLoop_in {d : List UInt8} {fd : File} {n : ℕ} (h : ¬e < i)
    (hfree : ((svc.tbls t).tRec i).recFree = true) (hswap : ((svc.tbls t).tRec i).rStat.swap = true)
    (hhp : ((svc.tbls t).tRec i).rHead = .handle hp)
    (hin : xjSwapIn svc.swap.fd hp = .ok ((d, (d.length : ℤ)), fd))
    (hn : d.length / (svc.tbls t).tRecSize = n) (hfit : ¬(svc.tbls t).tRecNum < i + n)
    (hcksums : (svc.tbls t).cksums i n d = true) :
    swapInLoop t e (fuel + 1) i svc = swapInLoop t e fuel (i + n) { svc.setTd t ((svc.tbls t).inGroup i n d) with
      swap := svc.swap.afterIn hp d fd } := by
  subst hn
  rw [swapInLoop]
  dsimp only
  rw [if_neg h, if_pos (by rw [hfree, hswap]; rfl), hhp]
  dsimp only
  rw [hin]
  change (if (svc.tbls t).tRecNum < i + d.length / (svc.tbls t).tRecSize then _
    else if (svc.tbls t).cksums i (d.length / (svc.tbls t).tRecSize) d = false then _ else _) = _
  rw [if_neg hfit, if_neg (by rw [hcksums]; exact fun h => absurd h.symm Bool.false_ne_true)]
  rfl

/-- One buffer comes back. -/
theorem swapInGroup_kept (hz : z.Fresh) (hk : SvcKept z svc) (hi : i < (svc.tbls t).tRecNum)
    (hfree : ((svc.tbls t).tRec i).recFree = true) (hswap : ((svc.tbls t).tRec i).rStat.swap = true)
    (hhp : ((svc.tbls t).tRec i).rHead = .handle hp) (hsafe : SwapSafe svc.swap (.swapIn hp)) :
    ∃ svc', SvcKept z svc' ∧ svc'.tbls = Function.update svc.tbls t
        ((svc.tbls t).inGroup i ((svc.tbls t).groupEnd i - i) ((z.tbls t).wanted i)) ∧
      swapStep svc.swap (.swapIn hp) = .ok svc'.swap ∧
      ∀ fuel e, ¬e < i →
        swapInLoop t e (fuel + 1) i svc = swapInLoop t e fuel ((svc.tbls t).groupEnd i) svc' := by
  have ht := hk.tbls t
  obtain ⟨-, -, hmem⟩ := ht.held hi hhp
  obtain ⟨hlt, hnum, -⟩ := SwapTbl.groupEnd_spec hi
  obtain ⟨hlen, -⟩ := ht.wanted hi hswap
  obtain ⟨cs, hcs⟩ := hk.file
  obtain ⟨fd, cs', hin, hstep, hinv⟩ := xjSwapIn_kept hcs hmem hsafe
  have hsize : 0 < (svc.tbls t).tRecSize := by
    have hhead := hz.size t
    rw [ht.size]
    unfold R_HEAD_SIZE at hhead
    omega
  have hn : ((z.tbls t).wanted i).length / (svc.tbls t).tRecSize = (svc.tbls t).groupEnd i - i := by
    rw [hlen, Nat.mul_div_cancel _ hsize]
  refine ⟨{ svc.setTd t ((svc.tbls t).inGroup i ((svc.tbls t).groupEnd i - i) ((z.tbls t).wanted i)) with
    swap := svc.swap.afterIn hp ((z.tbls t).wanted i) fd }, ?_, rfl, hstep, ?_⟩
  rotate_left
  · intro fuel e hle
    rw [swapInLoop_in hle hfree hswap hhp hin hn (by omega) (ht.cksums hi hswap),
      Nat.add_sub_cancel' (Nat.le_of_lt hlt)]
  -- the handles that are left, and they stay live
  have hleft : ∀ k, ∀ hp', (((svc.tbls t).inGroup i ((svc.tbls t).groupEnd i - i)
      ((z.tbls t).wanted i)).tRec k).rHead = .handle hp' →
      k ≠ i ∧ ((svc.tbls t).tRec k).rHead = .handle hp' := by
    intro k hp' hhp'
    by_cases hg : i ≤ k ∧ k < i + ((svc.tbls t).groupEnd i - i)
    · rw [inGroup_in hg.1 hg.2] at hhp'
      cases hhp'
    · rw [inGroup_out hg] at hhp'
      exact ⟨by omega, hhp'⟩
  have hlive : ∀ t' k, k < (svc.tbls t').tRecNum → (t' ≠ t ∨ k ≠ i) → ∀ hp',
      ((svc.tbls t').tRec k).rHead = .handle hp' → ∀ d, (hp', d) ∈ svc.swap.live →
        (hp', d) ∈ (svc.swap.afterIn hp ((z.tbls t).wanted i) fd).live := by
    intro t' k hkn hne hp' hhp' d hd
    refine List.mem_filter.mpr ⟨hd, ?_⟩
    rw [decide_eq_true_eq]
    intro heq
    change hp' = hp at heq
    rw [heq] at hhp'
    obtain ⟨htt, hki⟩ := hk.apart t' t k i hp hkn hi hhp' hhp
    rcases hne with hne | hne
    · exact hne htt
    · exact hne hki
  refine hk.change (t := t) (s := 0) rfl ?_ ?_ ?_ ⟨cs', hinv⟩ rfl
  · refine (ht.inGroup hi hfree hswap).keep ?_
    intro k hkn hp' hhp' d hd
    obtain ⟨hne, hold⟩ := hleft k hp' hhp'
    exact hlive t k hkn (.inr hne) hp' hold d hd
  · intro k _ hp' hhp'
    exact .inl (hleft k hp' hhp').2
  · intro t' hne k hkn hp' hhp' d hd
    exact hlive t' k hkn (.inl hne) hp' hhp' d hd

/-- What swapping in leaves as it was, and what is in memory then -/
structure Back (t b stop : ℕ) (svc svc' : SwapSvc) : Prop where
  here : ∀ k < (svc.tbls t).tRecNum, ((svc.tbls t).tRec k).rStat.swap = false →
    (svc'.tbls t).tRec k = (svc.tbls t).tRec k
  loaded : ∀ k < (svc.tbls t).tRecNum, ((svc.tbls t).tRec k).rStat.swap = true →
    ((svc'.tbls t).tRec k).rStat.swap = false → ((svc'.tbls t).tRec k).rStat.cache = true
  back : ∀ k, b ≤ k → k < stop → ((svc'.tbls t).tRec k).rStat.swap = false

theorem swapInLoop_kept (fuel : ℕ) (hz : z.Fresh) (hk : SvcKept z svc)
    (hstop : 0 < stop) (hnum : stop ≤ (svc.tbls t).tRecNum)
    (hi : i < (svc.tbls t).tRecNum → ((svc.tbls t).tRec i).recFree = false →
      ((svc.tbls t).tRec i).rStat.swap = false)
    (hpos : 0 < fuel) (hfuel : stop < fuel + i)
    (huse : SwapUsable svc.swap ((svc.tbls t).inCalls i stop)) :
    ∃ svc', swapInLoop t (stop - 1) fuel i svc = .ok (svc', true) ∧ SvcKept z svc' ∧ Back t i stop svc svc' := by
  induction fuel generalizing i svc with
  | zero => omega
  | succ fuel ih =>
      have ht := hk.tbls t
      by_cases hend : stop - 1 < i
      · rw [swapInLoop_end hend]
        refine ⟨svc, rfl, hk, ⟨fun _ _ _ => rfl, ?_, fun k hle hlt => by omega⟩⟩
        intro k _ hout hback
        rw [hout] at hback
        cases hback
      have hlt : i < (svc.tbls t).tRecNum := by omega
      cases hfree : ((svc.tbls t).tRec i).recFree && ((svc.tbls t).tRec i).rStat.swap with
      | false =>
          -- a slot of a buffer that is in memory
          have hswap : ((svc.tbls t).tRec i).rStat.swap = false := by
            cases hf : ((svc.tbls t).tRec i).recFree with
            | false => exact hi hlt hf
            | true =>
                rw [hf, Bool.true_and] at hfree
                exact hfree
          rw [swapInLoop_pass hend hfree]
          rw [inCalls_skip hfree] at huse
          obtain ⟨svc', hrun, hk', hback⟩ := ih hk hnum (by
            intro hlt' hnot
            rw [ht.same i hlt' hnot]
            exact hswap) (by omega) (by omega) huse
          refine ⟨svc', hrun, hk', hback.here, hback.loaded, ?_⟩
          intro k hle hkstop
          by_cases heq : k = i
          · rw [heq, hback.here i hlt hswap]
            exact hswap
          · exact hback.back k (by omega) hkstop
      | true =>
          obtain ⟨hfirst, hswap⟩ := Bool.and_eq_true_iff.mp hfree
          obtain ⟨hp, hhp, -⟩ := ht.handle i hlt hswap hfirst
          obtain ⟨hlt', hle, hbetween, hnext⟩ := SwapTbl.groupEnd_spec hlt
          -- the call that comes next, and those behind the buffer
          rw [inCalls_first (by omega) hfirst hswap hhp] at huse
          obtain ⟨⟨-, hsafe⟩, hrest⟩ := huse
          obtain ⟨svc₁, hk₁, htbls, hstep, hloop⟩ := swapInGroup_kept hz hk hlt hfirst hswap hhp hsafe
          have huse₁ := hrest _ hstep
          have hself : svc₁.tbls t = (svc.tbls t).inGroup i ((svc.tbls t).groupEnd i - i) ((z.tbls t).wanted i) := by
            rw [htbls, Function.update_self]
          have hnum₁ : (svc₁.tbls t).tRecNum = (svc.tbls t).tRecNum := by
            rw [hself]
            rfl
          have hbehind : ∀ k, (svc.tbls t).groupEnd i ≤ k → (svc₁.tbls t).tRec k = (svc.tbls t).tRec k := by
            intro k hkge
            rw [hself, inGroup_out (by omega)]
          have hcalls : (svc₁.tbls t).inCalls ((svc.tbls t).groupEnd i) stop =
              (svc.tbls t).inCalls (i + 1) stop := by
            rw [inCalls_congr hbehind]
            refine (inCalls_skips hlt' ?_).symm
            intro k hkl hkg
            rw [hbetween k hkl hkg]
            rfl
          obtain ⟨svc', hrun, hk', hback⟩ := ih hk₁ (by omega) (by
            intro hlt'' hnot
            rw [hbehind _ (Nat.le_refl _), hnext (by omega)] at hnot
            cases hnot) (by omega) (by omega) (by
            rw [hcalls]
            exact huse₁)
          refine ⟨svc', (hloop fuel _ hend).trans hrun, hk', ?_, ?_, ?_⟩
          · intro k hkn hkswap
            have hout : ¬(i ≤ k ∧ k < i + ((svc.tbls t).groupEnd i - i)) := by
              intro hg
              have hgroup := (ht.group hlt hg.1 (by omega)).trans hswap
              rw [hkswap] at hgroup
              cases hgroup
            have hsame : (svc₁.tbls t).tRec k = (svc.tbls t).tRec k := by
              rw [hself, inGroup_out hout]
            rw [hback.here k (by omega) (by rw [hsame]; exact hkswap), hsame]
          · intro k hkn hkswap hkback
            by_cases hg : i ≤ k ∧ k < i + ((svc.tbls t).groupEnd i - i)
            · have hin : (svc₁.tbls t).tRec k = ((svc.tbls t).tRec k).swapIn
                  ((svc.tbls t).part ((z.tbls t).wanted i) (k - i)) := by
                rw [hself, inGroup_in hg.1 hg.2]
              rw [hback.here k (by omega) (by rw [hin]; rfl), hin]
              rfl
            · have hsame : (svc₁.tbls t).tRec k = (svc.tbls t).tRec k := by
                rw [hself, inGroup_out hg]
              exact hback.loaded k (by omega) (by rw [hsame]; exact hkswap) hkback
          · intro k hkle hkstop
            by_cases hg : k < (svc.tbls t).groupEnd i
            · have hin : ((svc₁.tbls t).tRec k).rStat.swap = false := by
                rw [hself, inGroup_in hkle (by omega)]
                rfl
              rw [hback.here k (by omega) hin]
              exact hin
            · exact hback.back k (by omega) hkstop

/-- `xj_swap_in_td` from the buffer of slot `s` on ends, with all the slots in memory. -/
theorem xjSwapInTd_kept (hz : z.Fresh) (hk : SvcKept z svc) (hs : s < stop)
    (hnum : stop ≤ (svc.tbls t).tRecNum)
    (huse : SwapUsable svc.swap ((svc.tbls t).inCalls (((svc.tbls t).freeBack s).getD s) stop)) :
    ∃ svc', xjSwapInTd t s (stop - 1) svc = .ok (svc', true) ∧ SvcKept z svc' ∧ Back t s stop svc svc' := by
  have ht := hk.tbls t
  have hfirst : ((svc.tbls t).tRec 0).recFree = true := by
    rw [ht.free]
    refine hz.first t ?_
    rw [← ht.num]
    omega
  obtain ⟨b, hb, hle, hfree, -⟩ := SwapTbl.freeBack_some hfirst s
  rw [hb, Option.getD_some] at huse
  obtain ⟨svc', hrun, hk', hback⟩ := swapInLoop_kept ((svc.tbls t).tRecNum + 1) hz hk
    (by omega) hnum (fun _ hnot => by rw [hfree] at hnot; cases hnot) (by omega) (by omega) huse
  refine ⟨svc', ?_, hk', hback.here, hback.loaded, ?_⟩
  · unfold xjSwapInTd
    rw [hb]
    exact hrun
  · intro k hsk hlt
    exact hback.back k (by omega) hlt

theorem swapInRange_here {is : List ℕ} (h : ∀ i ∈ is, ((svc.tbls t).tRec i).rStat.swap = false) :
    swapInRange t e is svc = .ok svc := by
  induction is with
  | nil => rfl
  | cons i is ih =>
      rw [swapInRange, if_neg (by rw [h i List.mem_cons_self]; exact Bool.false_ne_true)]
      exact ih fun j hj => h j (List.mem_cons_of_mem i hj)

/-- The swap-in of `svc_load`: after it no slot that was asked for is swapped out. -/
theorem swapInRange_kept {n : ℕ} (hz : z.Fresh) (hk : SvcKept z svc) (hn : n = stop - s)
    (hnum : stop ≤ (svc.tbls t).tRecNum)
    (huse : ∀ i, ((List.range' s n).find? fun i => ((svc.tbls t).tRec i).rStat.swap) = some i →
      SwapUsable svc.swap ((svc.tbls t).inCalls (((svc.tbls t).freeBack i).getD i) stop)) :
    ∃ svc', swapInRange t (stop - 1) (List.range' s n) svc = .ok svc' ∧ SvcKept z svc' ∧
      Back t s stop svc svc' := by
  induction n generalizing s with
  | zero =>
      refine ⟨svc, rfl, hk, fun _ _ _ => rfl, ?_, fun k hle hlt => by omega⟩
      intro k _ hout hback
      rw [hout] at hback
      cases hback
  | succ n ih =>
      rw [List.range'_succ] at huse ⊢
      rw [swapInRange]
      cases hswap : ((svc.tbls t).tRec s).rStat.swap with
      | false =>
          obtain ⟨svc', hrun, hk', hback⟩ := ih (s := s + 1) (by omega) (by
            intro i hi
            refine huse i ?_
            rw [List.find?_cons, hswap]
            exact hi)
          refine ⟨svc', hrun, hk', hback.here, hback.loaded, ?_⟩
          intro i hle hlt
          by_cases heq : i = s
          · rw [heq, hback.here s (by omega) hswap]
            exact hswap
          · exact hback.back i (by omega) (by omega)
      | true =>
          obtain ⟨svc', hrun, hk', hback⟩ := xjSwapInTd_kept hz hk (show s < stop by omega) hnum
            (huse s (by rw [List.find?_cons, hswap]))
          refine ⟨svc', ?_, hk', hback⟩
          rw [if_pos rfl, hrun]
          refine swapInRange_here ?_
          intro i hi
          obtain ⟨hle, hlt⟩ := List.mem_range'_1.mp hi
          exact hback.back i (by omega) (by omega)

/-! ### Loading -/

theorem loadEnd_spec (td : SwapTbl) (h : s < stop) : s < td.loadEnd s stop ∧ td.loadEnd s stop ≤ stop := by
  unfold SwapTbl.loadEnd
  cases hfind : (List.range' (s + 1) (stop - (s + 1))).find? fun i => (td.tRec i).recFree with
  | none => exact ⟨h, Nat.le_refl stop⟩
  | some i =>
      obtain ⟨hle, hlt⟩ := List.mem_range'_1.mp (List.mem_of_find?_eq_some hfind)
      rw [Option.getD_some]
      omega

theorem loadSlots_in {td : SwapTbl} (hle : s ≤ i) (hlt : i < e) :
    (td.loadSlots s e).tRec i = (td.tRec i).load (td.recs i) := if_pos ⟨hle, hlt⟩

theorem loadSlots_out {td : SwapTbl} (hi : ¬(s ≤ i ∧ i < e)) : (td.loadSlots s e).tRec i = td.tRec i := if_neg hi

/-- Loading changes no mark of the swap. -/
theorem loadSlots_swap {td : SwapTbl} : ((td.loadSlots s e).tRec i).rStat.swap = (td.tRec i).rStat.swap ∧
    ((td.loadSlots s e).tRec i).recFree = (td.tRec i).recFree := by
  by_cases hi : s ≤ i ∧ i < e
  · rw [loadSlots_in hi.1 hi.2]
    exact ⟨rfl, rfl⟩
  · rw [loadSlots_out hi]
    exact ⟨rfl, rfl⟩

/-- Records of the file are loaded where nothing else is wanted. -/
theorem TblKept.loadSlots {td : SwapTbl} {zt : SwapTbl} {live : List (ℕ × List UInt8)} (ht : TblKept zt td live)
    (hrecs : ∀ i, (zt.recs i).length = zt.tRecSize)
    (hin : ∀ i, s ≤ i → i < e → (td.tRec i).rStat.swap = false ∧ zt.want i = zt.fileView i) :
    TblKept zt (td.loadSlots s e) live := by
  refine ⟨ht.num, ht.size, ht.recs, fun i => loadSlots_swap.2.trans (ht.free i), ?_, ?_, ?_, ?_, ?_⟩
  · intro i hi
    by_cases hg : s ≤ i ∧ i < e
    · obtain ⟨hswap, hwant⟩ := hin i hg.1 hg.2
      have hhere := ht.here hi hswap
      rw [loadSlots_in hg.1 hg.2, ht.recs]
      exact .inl ⟨hswap, rfl, hrecs i, fun _ => hwant.symm, fun h => absurd h.symm Bool.false_ne_true, hhere.outs⟩
    · rw [loadSlots_out hg]
      exact ht.slot i hi
  · intro i hi hnot
    rw [loadSlots_swap.2] at hnot
    rw [loadSlots_swap.1, loadSlots_swap.1]
    exact ht.same i hi hnot
  · intro i hi hswap hfirst
    rw [loadSlots_swap.1] at hswap
    rw [loadSlots_swap.2] at hfirst
    rw [loadSlots_out fun hg => by rw [(hin i hg.1 hg.2).1] at hswap; cases hswap]
    exact ht.handle i hi hswap hfirst
  · intro i hi hswap hnot
    rw [loadSlots_swap.1] at hswap
    rw [loadSlots_swap.2] at hnot
    rw [loadSlots_out fun hg => by rw [(hin i hg.1 hg.2).1] at hswap; cases hswap]
    exact ht.gone i hi hswap hnot
  · intro i hi hswap j hj
    rw [loadSlots_swap.1] at hswap
    by_cases hg : s ≤ j ∧ j < e
    · rw [loadSlots_in hg.1 hg.2]
      exact .inl rfl
    · rw [loadSlots_out hg]
      exact ht.all i hi hswap j hj

/-- The loop that reads the file ends, with all the slots loaded. -/
theorem loadLoop_kept (fuel : ℕ) (hz : z.Fresh) (hk : SvcKept z svc) (hs : s < stop)
    (hnum : stop ≤ (svc.tbls t).tRecNum) (hfuel : stop < fuel + s)
    (hin : ∀ i, s ≤ i → i < stop → ((svc.tbls t).tRec i).rStat.swap = false ∧
      (z.tbls t).want i = (z.tbls t).fileView i) :
    ∃ svc', loadLoop t stop fuel s svc = .ok svc' ∧ SvcKept z svc' ∧
      (∀ i < s, (svc'.tbls t).tRec i = (svc.tbls t).tRec i) ∧
      ∀ i, s ≤ i → i < stop → ((svc'.tbls t).tRec i).rStat.swap = false ∧
        ((svc'.tbls t).tRec i).rStat.cache = true := by
  induction fuel generalizing s svc with
  | zero => omega
  | succ fuel ih =>
      have ht := hk.tbls t
      obtain ⟨hlt, hle⟩ := loadEnd_spec (svc.tbls t) hs
      generalize hi : (svc.tbls t).loadEnd s stop = i at hlt hle
      -- the buffer is in memory
      have hthere : ((svc.tbls t).buffer s i).isNone = false := by
        unfold SwapTbl.buffer
        rw [if_pos]
        · rfl
        · refine List.all_eq_true.mpr ?_
          intro k hk
          obtain ⟨hsk, hki⟩ := List.mem_range'_1.mp hk
          exact (ht.here (by omega) (hin k hsk (by omega)).1).there
      -- the part of it that is read
      have hload := ht.loadSlots (s := s) (e := i) (hz.recs t) fun k hsk hki => hin k hsk (by omega)
      have hself : (svc.setTd t ((svc.tbls t).loadSlots s i)).tbls t = (svc.tbls t).loadSlots s i :=
        Function.update_self ..
      have hk₁ : SvcKept z (svc.setTd t ((svc.tbls t).loadSlots s i)) := by
        refine hk.change (t := t) (s := 0) rfl hload ?_ (fun _ _ _ _ _ _ _ hd => hd) hk.file rfl
        intro k hkn hp hhp
        obtain ⟨hswap, -, -⟩ := hload.held hkn hhp
        rw [loadSlots_swap.1] at hswap
        rw [loadSlots_out fun hg => by rw [(hin k hg.1 (by omega)).1] at hswap; cases hswap] at hhp
        exact .inl hhp
      have hloaded : ∀ k, s ≤ k → k < i → (((svc.tbls t).loadSlots s i).tRec k).rStat.swap = false ∧
          (((svc.tbls t).loadSlots s i).tRec k).rStat.cache = true := by
        intro k hsk hki
        rw [loadSlots_in hsk hki]
        exact ⟨(hin k hsk (by omega)).1, rfl⟩
      rw [loadLoop]
      dsimp only
      rw [hi, hthere, if_neg Bool.false_ne_true]
      by_cases hmore : i < stop
      · rw [if_pos hmore]
        obtain ⟨svc', hrun, hk', hbefore, hall⟩ := ih hk₁ hmore (by rw [hself]; exact hnum) (by omega) (by
          intro k hik hks
          rw [hself, loadSlots_swap.1]
          exact hin k (by omega) hks)
        rw [hself] at hbefore
        refine ⟨svc', hrun, hk', ?_, ?_⟩
        · intro k hks
          rw [hbefore k (by omega), loadSlots_out (by omega)]
        · intro k hsk hks
          by_cases hki : k < i
          · rw [hbefore k hki]
            exact hloaded k hsk hki
          · exact hall k (by omega) hks
      · rw [if_neg hmore]
        refine ⟨_, rfl, hk₁, ?_, ?_⟩
        · intro k hks
          rw [hself, loadSlots_out (by omega)]
        · intro k hsk hks
          rw [hself]
          exact hloaded k hsk (by omega)

theorem TblKept.asked {zt td td' : SwapTbl} {live live' : List (ℕ × List UInt8)} (h : TblKept zt td live)
    (h' : TblKept zt td' live') (s l : ℕ) : td'.asked s l = td.asked s l := by
  unfold SwapTbl.asked
  rw [h.num, h'.num]

theorem mem_asked {td : SwapTbl} {l : ℕ} (h : i ∈ td.asked s l) : s ≤ i ∧ i < min (s + l) td.tRecNum := by
  obtain ⟨hle, hlt⟩ := List.mem_range'_1.mp h
  exact ⟨hle, by omega⟩

/-- A record that is loaded again after it was not: nothing of its table is swapped out, and all
that was asked for is as in the file. -/
theorem svcLoad_again {l : ℕ} (hk : SvcKept z svc) (hsafe : SwapSvcSafe svc (.access t s l))
    (hback : Back t s (min (s + l) (svc.tbls t).tRecNum) svc svc')
    (hi : i ∈ (svc.tbls t).asked s l) (hcache : ((svc'.tbls t).tRec i).rStat.cache = false) :
    ∀ k ∈ (svc.tbls t).asked s l, (z.tbls t).want k = (z.tbls t).fileView k := by
  have ht := hk.tbls t
  obtain ⟨hle, hlt⟩ := mem_asked hi
  have hin : i < (svc.tbls t).tRecNum := by omega
  have hswap : ((svc.tbls t).tRec i).rStat.swap = false := by
    cases hout : ((svc.tbls t).tRec i).rStat.swap with
    | false => rfl
    | true =>
        rw [hback.loaded i hin hout (hback.back i hle hlt)] at hcache
        cases hcache
  rw [hback.here i hin hswap] at hcache
  intro k hkmem
  obtain ⟨hlek, hltk⟩ := mem_asked hkmem
  have hkn : k < (svc.tbls t).tRecNum := by omega
  have hhere : SlotHere (z.tbls t) k ((svc.tbls t).tRec k) := by
    refine ht.here hkn ?_
    cases hout : ((svc.tbls t).tRec k).rStat.swap with
    | false => rfl
    | true =>
        rcases ht.all k hkn hout i hin with h | h
        · rw [hcache] at h
          cases h
        · rw [hswap] at h
          cases h
  cases hloaded : ((svc.tbls t).tRec k).rStat.cache with
  | false => exact hhere.never hloaded
  | true =>
      have hfile : (svc.tbls t).fileView k = (z.tbls t).fileView k := by
        unfold SwapTbl.fileView
        rw [ht.recs]
      exact ((hhere.loaded hloaded).symm.trans (hsafe.2.1 ⟨i, hi, hcache, hswap⟩ k hkmem hloaded)).trans hfile

/-- A record that was asked for and is in memory and loaded is not dirty. -/
theorem Back.clean {l : ℕ} (hk : SvcKept z svc) (hk' : SvcKept z svc') (hsafe : SwapSvcSafe svc (.access t s l))
    (hback : Back t s (min (s + l) (svc.tbls t).tRecNum) svc svc')
    (hi : i ∈ (svc.tbls t).asked s l) (hcache : ((svc'.tbls t).tRec i).rStat.cache = true) :
    ((svc'.tbls t).tRec i).rStat.dirty = false := by
  obtain ⟨hle, hlt⟩ := mem_asked hi
  have hin : i < (svc.tbls t).tRecNum := by omega
  have hclean := hsafe.1 i hi
  cases hout : ((svc.tbls t).tRec i).rStat.swap with
  | false =>
      rw [hback.here i hin hout]
      exact hclean
  | true =>
      have hin' : i < (svc'.tbls t).tRecNum := by
        rw [(hk'.tbls t).num, ← (hk.tbls t).num]
        exact hin
      have hhere := (hk'.tbls t).here hin' (hback.back i hle hlt)
      calc ((svc'.tbls t).tRec i).rStat.dirty
          = ((z.tbls t).want i).dirty := congrArg RecView.dirty (hhere.loaded hcache)
        _ = ((svc.tbls t).tRec i).rStat.dirty := (((hk.tbls t).out hin hout).dirty).symm
        _ = false := hclean

/-- `svc_load` ends, with the records that it was asked for in memory and as they are wanted. -/
theorem svcLoad_kept {l : ℕ} (hz : z.Fresh) (hk : SvcKept z svc) (hsafe : SwapSvcSafe svc (.access t s l)) :
    ∃ svc', svc.svcLoad t s l = .ok svc' ∧ SvcKept z svc' ∧ ∀ i ∈ (svc'.tbls t).asked s l,
      ((svc'.tbls t).tRec i).rHead.there = true ∧ (svc'.tbls t).view i = (z.tbls t).want i := by
  -- what is in memory and loaded is as it is wanted
  have hdone : ∀ svc', SvcKept z svc' → (∀ i ∈ (svc.tbls t).asked s l,
      ((svc'.tbls t).tRec i).rStat.swap = false ∧ ((svc'.tbls t).tRec i).rStat.cache = true) →
      ∀ i ∈ (svc'.tbls t).asked s l,
        ((svc'.tbls t).tRec i).rHead.there = true ∧ (svc'.tbls t).view i = (z.tbls t).want i := by
    intro svc' hk' hall i hi
    obtain ⟨-, hlt⟩ := mem_asked hi
    rw [(hk.tbls t).asked (hk'.tbls t)] at hi
    obtain ⟨hswap, hcache⟩ := hall i hi
    have hhere := (hk'.tbls t).here (show i < (svc'.tbls t).tRecNum by omega) hswap
    exact ⟨hhere.there, hhere.loaded hcache⟩
  obtain ⟨svc₁, hrun, hk₁, hback⟩ := swapInRange_kept (t := t) (s := s) hz hk rfl
    (Nat.min_le_right (s + l) (svc.tbls t).tRecNum) (by
      intro i hi
      have huse := hsafe.2.2
      unfold SwapTbl.loadCalls SwapTbl.asked at huse
      rw [hi] at huse
      exact huse)
  have hout : ∀ i ∈ (svc.tbls t).asked s l, ((svc₁.tbls t).tRec i).rStat.swap = false := by
    intro i hi
    obtain ⟨hle, hlt⟩ := mem_asked hi
    exact hback.back i hle hlt
  have hnum : (svc₁.tbls t).tRecNum = (svc.tbls t).tRecNum := (hk₁.tbls t).num.trans (hk.tbls t).num.symm
  have hload : svc.svcLoad t s l =
      if ((svc.tbls t).asked s l).all fun i =>
          ((svc₁.tbls t).tRec i).rStat.cache && !((svc₁.tbls t).tRec i).rStat.dirty then .ok svc₁
      else loadLoop t (min (s + l) (svc.tbls t).tRecNum) ((svc₁.tbls t).tRecNum + 1) s svc₁ := by
    unfold SwapSvc.svcLoad SwapTbl.asked
    dsimp only
    rw [hrun]
    rfl
  rw [hload]
  by_cases hall : (((svc.tbls t).asked s l).all fun i =>
      ((svc₁.tbls t).tRec i).rStat.cache && !((svc₁.tbls t).tRec i).rStat.dirty) = true
  · rw [if_pos hall]
    refine ⟨svc₁, rfl, hk₁, hdone svc₁ hk₁ ?_⟩
    intro i hi
    exact ⟨hout i hi, (Bool.and_eq_true_iff.mp (List.all_eq_true.mp hall i hi)).1⟩
  · rw [if_neg hall]
    -- one of the records was not loaded yet
    obtain ⟨i, hi, hcache⟩ : ∃ i ∈ (svc.tbls t).asked s l, ((svc₁.tbls t).tRec i).rStat.cache = false := by
      by_contra hnot
      refine hall (List.all_eq_true.mpr ?_)
      intro i hi
      have hcache : ((svc₁.tbls t).tRec i).rStat.cache = true := by
        by_contra hc
        exact hnot ⟨i, hi, Bool.eq_false_iff.mpr hc⟩
      rw [hcache, hback.clean hk hk₁ hsafe hi hcache]
      rfl
    have hfile := svcLoad_again hk hsafe hback hi hcache
    obtain ⟨hle, hlt⟩ := mem_asked hi
    have hmem : ∀ k, s ≤ k → k < min (s + l) (svc.tbls t).tRecNum → k ∈ (svc.tbls t).asked s l := by
      intro k hsk hks
      exact List.mem_range'_1.mpr ⟨hsk, by omega⟩
    obtain ⟨svc', hrun', hk', -, hall'⟩ := loadLoop_kept ((svc₁.tbls t).tRecNum + 1) hz hk₁
      (show s < min (s + l) (svc.tbls t).tRecNum by omega) (by omega) (by omega)
      fun k hsk hks => ⟨hout k (hmem k hsk hks), hfile k (hmem k hsk hks)⟩
    refine ⟨svc', hrun', hk', hdone svc' hk' ?_⟩
    intro k hkmem
    obtain ⟨hsk, hks⟩ := mem_asked hkmem
    exact hall' k hsk hks

end Load

/-! ### Runs -/

section Runs
variable {z svc : SwapSvc}

/-- Tables in memory are as they were. -/
theorem SwapSvc.Fresh.kept (hz : z.Fresh) : SvcKept z z := by
  have hswap : ∀ t, ∀ i < (z.tbls t).tRecNum, ((z.tbls t).tRec i).rStat.swap ≠ true := by
    intro t i hi h
    rw [(hz.swap t i hi).1] at h
    cases h
  have hhandle : ∀ t i hp, i < (z.tbls t).tRecNum → ((z.tbls t).tRec i).rHead ≠ .handle hp := by
    intro t i hp hi heq
    have hthere := (hz.there t i hi).1
    rw [heq] at hthere
    cases hthere
  refine ⟨?_, ?_, ?_, ?_⟩
  · intro t
    refine ⟨rfl, rfl, rfl, fun _ => rfl, ?_, ?_, ?_, ?_, ?_⟩
    · intro i hi
      obtain ⟨hthere, hlen⟩ := hz.there t i hi
      obtain ⟨hout, houts⟩ := hz.swap t i hi
      refine .inl ⟨hout, hthere, hlen, ?_, ?_, houts⟩
      · intro hcache
        exact (if_pos hcache).symm
      · intro hcache
        exact if_neg (by rw [hcache]; exact Bool.false_ne_true)
    · intro i hi _
      rw [(hz.swap t i (by omega)).1, (hz.swap t (i + 1) hi).1]
    · intro i hi h
      exact absurd h (hswap t i hi)
    · intro i hi h
      exact absurd h (hswap t i hi)
    · intro i hi h
      exact absurd h (hswap t i hi)
  · intro t t' i i' hp hi _ hhp _
    exact absurd hhp (hhandle t i hp hi)
  · rw [hz.file]
    exact ⟨_, swapInitial_inv⟩
  · rw [hz.seen]
    intro x hx
    cases hx

/-- One step -/
theorem swapSvcStep_kept {op : SwapSvcOp} (hz : z.Fresh) (hk : SvcKept z svc) (hsafe : SwapSvcSafe svc op) :
    ∃ svc', swapSvcStep svc op = .ok svc' ∧ SvcKept z svc' := by
  cases op with
  | schedule mytd =>
      obtain ⟨hready, huse⟩ := hsafe
      obtain ⟨svc', hrun, hk'⟩ := scheduleTds_kept _ hk (List.nodup_range.filter _) hready huse
      exact ⟨svc', hrun, hk'⟩
  | access t s l =>
      obtain ⟨svc', hrun, hk', hall⟩ := svcLoad_kept hz hk hsafe
      have hthere : (((svc'.tbls t).asked s l).all fun i => ((svc'.tbls t).tRec i).rHead.there) = true :=
        List.all_eq_true.mpr fun i hi => (hall i hi).1
      refine ⟨{ svc' with
        seen := ((svc'.tbls t).asked s l).map (fun i => ((t, i), (svc'.tbls t).view i)) ++ svc'.seen }, ?_,
        { hk' with seen := ?_ }⟩
      · change svc.access t s l = _
        unfold SwapSvc.access
        rw [hrun]
        exact if_pos hthere
      · intro x hx
        rcases List.mem_append.mp hx with hx | hx
        · obtain ⟨i, hi, rfl⟩ := List.mem_map.mp hx
          exact (hall i hi).2
        · exact hk'.seen x hx

theorem SvcKept.transparent (hk : SvcKept z svc) : z.Transparent svc := by
  refine ⟨hk.seen, ?_⟩
  intro t i hi
  rcases (hk.tbls t).slot i hi with hhere | hout
  · rw [hhere.outs]
    exact Nat.zero_le 1
  · exact Nat.le_of_eq hout.outs

/-- In a run of safe steps every record that is accessed is as it was at the start, every
buffer is swapped out at most once before it is swapped in, and no loop runs on. -/
theorem swapSvc_transparent (svc : SwapSvc) (ops : List SwapSvcOp) (hfresh : svc.Fresh)
    (hsafe : Along swapSvcStep SwapSvcSafe svc ops) :
    ∃ svc', run swapSvcStep svc ops = .ok svc' ∧ svc.Transparent svc' := by
  have hrun : Result (fun _ => False) (SvcKept svc) (run swapSvcStep svc ops) := by
    refine Result.along ?_ hfresh.kept hsafe
    intro svc₁ op hk hop
    obtain ⟨svc₂, hstep, hk₂⟩ := swapSvcStep_kept hfresh hk hop
    rw [hstep]
    exact hk₂
  cases hres : run swapSvcStep svc ops with
  | error e =>
      rw [hres] at hrun
      exact hrun.elim
  | ok svc' =>
      rw [hres] at hrun
      exact ⟨svc', rfl, SvcKept.transparent hrun⟩

/-- A table of two cached records in one buffer, which differ from those in the file -/
def swapDemoTbl : SwapTbl where
  tRec := fun i =>
    { rStat := { cache := true, used := i == 0 }
      recFree := i == 0
      rHead := .record (List.replicate 16 1 ++ List.replicate 16 (if i = 0 then 0 else 7)) }
  tRecNum := 2
  tRecSize := 32
  recs := fun _ => List.replicate 32 0

def swapDemoSvc : SwapSvc where
  tbls := fun _ => swapDemoTbl
  tblNum := 1

theorem swapDemoSvc_fresh : swapDemoSvc.Fresh where
  size := fun _ => show R_HEAD_SIZE ≤ swapDemoTbl.tRecSize by decide
  first := fun _ _ => rfl
  there := fun _ => show ∀ i < swapDemoTbl.tRecNum, (swapDemoTbl.tRec i).rHead.there = true ∧
    (swapDemoTbl.tRec i).rHead.data.length = swapDemoTbl.tRecSize by decide
  swap := fun _ => show ∀ i < swapDemoTbl.tRecNum, (swapDemoTbl.tRec i).rStat.swap = false ∧
    (swapDemoTbl.tRec i).outs = 0 by decide
  recs := fun _ _ => rfl
  file := rfl
  seen := rfl

/-- The table goes out and comes back, twice. -/
theorem swapSvc_transparent_twice : ∃ svc', run swapSvcStep swapDemoSvc
    [.schedule 1, .access 0 1 1, .schedule 1, .access 0 0 2] = .ok svc' ∧ swapDemoSvc.Transparent svc' :=
  swapSvc_transparent swapDemoSvc _ swapDemoSvc_fresh (by decide +kernel)

/-- A table that is swapped out goes out again: its handle is taken for an address. -/
theorem swapSvc_not_transparent : ¬∀ svc ops, svc.Fresh →
    ∃ svc', run swapSvcStep svc ops = .ok svc' ∧ svc.Transparent svc' := by
  intro h
  obtain ⟨svc', hrun, -⟩ := h swapDemoSvc [.schedule 1, .schedule 1] swapDemoSvc_fresh
  have hwild : (run swapSvcStep swapDemoSvc [.schedule 1, .schedule 1]).isOk = false := by decide +kernel
  rw [hrun] at hwild
  cases hwild

end Runs

end PaxosSolutions.XjPing
