import PaxosSolutions.Paxos.SlotWrap
import PaxosSolutions.Paxos.Told

/-!
# What a catch-up brings over

A server that is asked for decisions answers with those that it executed, one
after the other, as long as the first of them is on a page that it retains. A
server without gaps that takes these answers executes the same commands under
the same numbers.
-/
namespace PaxosSolutions
open NWGadget Lib Lib.Handler

/-- The reply has the executed command. -/
structure Brings (m : MsgCatchupRpl) (g : Gap) : Prop where
  isTrue : m.cTrue = true
  seq : m.cSeq = g.gSeq
  cmd : m.cMetaCmd = g.gMetaCmd
  some : ¬ m.cMetaCmd.IsEmpty

/-- The slot of the number is decided on the command. -/
def Replica.Says (p : Replica) (g : Gap) : Prop :=
  ∃ mu, getPage p (toPage g.gSeq) = some mu ∧ (mu.slots (toK g.gSeq)).pMode = .decided ∧
    ¬ (mu.slots (toK g.gSeq)).cMetaCmdRnd.IsEmpty ∧
    (mu.slots (toK g.gSeq)).cMetaCmdRnd = g.gMetaCmd

/-- One number after the other. -/
abbrev Consecutive (gs : List Gap) : Prop := gs.IsChain fun a b => b.gSeq = a.gSeq + 1

section
variable {n : UInt32} {o : List Out} {p : Replica} {s : Paxos} {j fr : ℕ} {e : Env}

/-! ### The server that is asked -/

theorem getPage_isSome {page : UInt32} (h : page ∈ p.pages) : ∃ mu, getPage p page = some mu := by
  unfold getPage
  split
  · exact ⟨_, rfl⟩
  · next hne =>
      obtain ⟨mu, hmu, hpage⟩ := List.mem_map.mp ((List.mem_cons.mp h).resolve_left hne)
      exact Option.isSome_iff_exists.mp (List.find?_isSome.mpr ⟨mu, hmu, by simpa using hpage⟩)

theorem catchupInstanceRpl_answers {g : Gap} (h : s.Says g) (hact : (s.pServer fr).sActive = true) :
    ∃ m, Brings m g ∧ (getPage s.toReplica (toPage g.gSeq)).isSome ∧
      catchupInstanceRpl fr (getPage s.toReplica (toPage g.gSeq)) g.gSeq s =
        ⟨.ok true, s, [.send fr (.catchupRpl m)]⟩ := by
  obtain ⟨mu, hmu, hm, hc, hcmd⟩ := h
  let r : MsgCatchupRpl :=
    { cTrue := true, cMyNextDecide := s.pNextDecide, cSeq := g.gSeq,
      cPaxosI := (mu.slots (toK g.gSeq)).toInstance,
      cMetaCmd := (mu.slots (toK g.gSeq)).cMetaCmdRnd }
  refine ⟨r, ⟨rfl, rfl, hcmd, hc⟩, by rw [hmu]; rfl, ?_⟩
  rw [hmu]
  unfold catchupInstanceRpl
  simp only [read_bind]
  rw [if_neg (not_not.mpr hm), if_neg hc, bind_of_ok (paxosSend_run ..)]
  unfold sendIf
  rw [if_pos hact]
  rfl

/-- One turn of the loop answers for its number. -/
theorem catchupReqLoop_turn (hact : (s.pServer fr).sActive = true) {g : Gap} (hg : s.Says g)
    (seqTo : UInt32) (m : ℕ) (found : Bool) :
    ∃ r, Brings r g ∧ catchupReqLoop fr seqTo (m + 1) g.gSeq found s =
      if cmp32 (g.gSeq + 1) seqTo ≤ 0 then
        ⟨(catchupReqLoop fr seqTo m (g.gSeq + 1) true s).val,
          (catchupReqLoop fr seqTo m (g.gSeq + 1) true s).st,
          .send fr (.catchupRpl r) :: (catchupReqLoop fr seqTo m (g.gSeq + 1) true s).out⟩
      else ⟨.ok true, s, [.send fr (.catchupRpl r)]⟩ := by
  obtain ⟨r, hr, hsome, hrun⟩ := catchupInstanceRpl_answers hg hact
  refine ⟨r, hr, ?_⟩
  rw [catchupReqLoop, read_bind, bind_of_ok hrun]
  simp only [Bool.true_eq_false, Handler.when, if_false, pure_bind', hsome, Bool.and_self,
    Bool.or_true]
  split <;> rfl

theorem cmp32_succ_add (x : UInt32) {d : ℕ} (hd : d < 2 ^ 31) :
    cmp32 (x + 1) (x + d.toUInt32) = 1 - d := by
  have hone : (x + 1 - x).toNat = 1 := by
    have hsub : x + 1 - x = 1 := by grind
    rw [hsub]
    rfl
  have hdist : (x + d.toUInt32 - x).toNat = d := by
    have hsub : x + d.toUInt32 - x = d.toUInt32 := by grind
    rw [hsub, Nat.toUInt32, UInt32.toNat_ofNat_of_lt' (by simp only [UInt32.size]; omega)]
  have hnear : (x + 1 - x).toNat < 2 ^ 31 := by omega
  have hfar : (x + d.toUInt32 - x).toNat < 2 ^ 31 := by omega
  rw [cmp32_eq_sub_base hnear hfar, hone, hdist]
  rfl

/-- The loop answers for one number after the other. -/
theorem catchupReqLoop_answers (hact : (s.pServer fr).sActive = true) {gs : List Gap} {g : Gap}
    (hgs : ∀ x ∈ g :: gs, s.Says x) (hchain : Consecutive (g :: gs)) (hlen : gs.length < 2 ^ 31)
    {m : ℕ} (hm : gs.length ≤ m) (found : Bool) :
    ∃ ms, List.Forall₂ Brings ms (g :: gs) ∧
      catchupReqLoop fr (g.gSeq + gs.length.toUInt32) (m + 1) g.gSeq found s =
        ⟨.ok true, s, ms.map fun r => .send fr (.catchupRpl r)⟩ := by
  induction gs generalizing g m found with
  | nil =>
      obtain ⟨r, hr, hrun⟩ := catchupReqLoop_turn hact (hgs g List.mem_cons_self)
        (g.gSeq + (([] : List Gap).length).toUInt32) m found
      refine ⟨[r], .cons hr .nil, ?_⟩
      rw [hrun, cmp32_succ_add _ hlen, if_neg (by simp)]
      rfl
  | cons g' gs ih =>
      obtain ⟨r, hr, hrun⟩ := catchupReqLoop_turn hact (hgs g List.mem_cons_self)
        (g.gSeq + ((g' :: gs).length).toUInt32) m found
      obtain ⟨hnext, hchain⟩ := List.isChain_cons_cons.mp hchain
      have hto : g.gSeq + ((g' :: gs).length).toUInt32 = g'.gSeq + gs.length.toUInt32 := by
        rw [hnext, List.length_cons]
        simp only [Nat.toUInt32]
        rw [UInt32.ofNat_add]
        grind
      have hlen' : gs.length + 1 < 2 ^ 31 := hlen
      have hm' : gs.length + 1 ≤ m := hm
      obtain ⟨m, rfl⟩ : ∃ m', m = m' + 1 := ⟨m - 1, by omega⟩
      obtain ⟨ms, hms, hrest⟩ := ih (fun x hx => hgs x (List.mem_cons_of_mem _ hx)) hchain
        (by omega) (m := m) (by omega) true
      refine ⟨r :: ms, .cons hr hms, ?_⟩
      rw [hrun, cmp32_succ_add _ hlen, if_pos (by rw [List.length_cons]; omega), hto, ← hnext, hrest]
      rfl

/-- The request for a row of numbers is answered with their commands. -/
theorem recvCatchupReq_answers (hact : (s.pServer fr).sActive = true) {gs : List Gap} {g : Gap}
    (hgs : ∀ x ∈ g :: gs, s.Says x) (hchain : Consecutive (g :: gs)) (hlen : gs.length < 2 ^ 31)
    {r : MsgCatchupReq} (hfrom : r.cSeqFrom = g.gSeq)
    (hto : r.cSeqTo = g.gSeq + gs.length.toUInt32) :
    ∃ ms, List.Forall₂ Brings ms (g :: gs) ∧
      (handle (.recv fr (.catchupReq r)) e s).val = .ok () ∧
      (handle (.recv fr (.catchupReq r)) e s).out = ms.map fun r => .send fr (.catchupRpl r) := by
  have hdist : gs.length ≤ (r.cSeqTo - r.cSeqFrom).toNat := by
    have hsub : r.cSeqTo - r.cSeqFrom = gs.length.toUInt32 := by grind
    rw [hsub, Nat.toUInt32, UInt32.toNat_ofNat_of_lt' (by simp only [UInt32.size]; omega)]
  obtain ⟨ms, hms, hrun⟩ := catchupReqLoop_answers hact hgs hchain hlen hdist false
  rw [← hto, ← hfrom] at hrun
  have hall : handle (.recv fr (.catchupReq r)) e s = recvCatchupReq fr r e s := rfl
  refine ⟨ms, hms, ?_⟩
  rw [hall]
  unfold recvCatchupReq
  rw [bind_of_ok hrun]
  exact ⟨rfl, List.append_nil _⟩

/-! ### The server that takes the answers -/

/-- Between steps, without a gap, on the page that `NextDecide` is on. -/
structure Replica.Ready (p : Replica) (j : ℕ) : Prop extends p.Ordered j where
  none : p.pGaps.hCount = 0
  page : p.page = toPage p.pNextDecide

theorem paxosValidate_accepts (he : e.refuse = false) (mode : NotifyMode) (seq : UInt32)
    (v : Value) (c : MetaCmd) (t : Paxos) :
    ∃ o, paxosValidate mode seq v c e t = ⟨.ok false, t, o⟩ ∧ ∀ x ∈ o, x.Plain := by
  unfold paxosValidate
  rw [read_bind]
  split_ifs
  · exact ⟨[], rfl, by simp⟩
  · exact ⟨[], rfl, by simp⟩
  · exact ⟨_, by rw [bind_of_ok (emit_apply _ t), he]; rfl, by simp [Out.Plain]⟩

/-- Nothing after `NextDecide` is decided. -/
theorem Replica.Ready.pending (h : p.Ready j) : p.pending j = ∅ :=
  Finset.card_eq_zero.mp (h.count.symm.trans h.none)

theorem Replica.Ready.at_eq (h : p.Ready j) : (toK p.pNextDecide).val = j := by
  refine (Replica.seq_inj (toK p.pNextDecide).isLt.le h.le).mp (Eq.trans ?_ h.next)
  change toSeq p.page _ = _
  rw [h.page, toSeq_toPage]

/-- An execution at `NextDecide` without gaps executes this slot only. -/
theorem exec_next {k : K} {f : Slot → Slot} {t : Paxos} (hs : t.toReplica = p.setSlot k f)
    (hp : p.Ready j) (hk : k.val = j) (hd : (f (p.slot k)).pMode = .decided)
    (hc : ¬ (f (p.slot k)).cMetaCmdRnd.IsEmpty) (hlt : p.pNextDecide.toNat + 1 < 2 ^ 32) :
    ∃ u o j', exec k e t = ⟨.ok (), u, o⟩ ∧ u.Ready j' ∧ u.pNextDecide = p.pNextDecide + 1 ∧
      executed o = [t.decision k] := by
  obtain ⟨u, o, j', hrun, hex, -, hend⟩ := exec_run (e := e) hs hp.toOrdered hd (hp.open' k hk) hc
  have hself : t.slot k = f (p.slot k) := by rw [hs, Replica.slot_setSlot_self]
  have hother {k' : K} (hne : k' ≠ k) : t.slot k' = p.slot k' := by
    rw [hs, Replica.slot_setSlot_of_ne hne]
  have hlater {k' : K} (hk' : j < k'.val) : (t.slot k').pMode ≠ .decided := by
    rw [hother (by rintro rfl; omega)]
    intro hm
    have hmem := Replica.mem_pending.mpr ⟨hk'.le, hm⟩
    rw [hp.pending] at hmem
    exact Finset.notMem_empty k' hmem
  have hj : j < 10 := hp.lt
  have hj' : j' = j + 1 := by
    have hle := hex.le
    have hmax : j' ≤ 10 := by
      rcases hend with ⟨hord, -⟩ | ⟨hj', -⟩
      · exact hord.le
      · exact hj'.le
    refine le_antisymm (Nat.le_of_not_lt fun hgt => ?_) (Nat.lt_of_le_of_ne hle fun heq => ?_)
    · have hk' : j + 1 < 10 := by omega
      have hdec := hex.decided ⟨j + 1, hk'⟩ (Nat.le_succ j) hgt
      exact hlater (Nat.lt_succ_self j) hdec
    · rcases hend with ⟨hord, -, hslot⟩ | ⟨hten, -⟩
      · exact hord.open' k (hk.trans heq) (by rw [hslot, hself, hd])
      · change j' = 10 at hten
        omega
  subst hj'
  have hone : executed o = [t.decision k] := by
    have hnil : between (k.val + 1) (k.val + 1) = [] := List.eq_nil_of_length_eq_zero (by
      rw [length_between (by have := k.isLt; omega), Nat.sub_self])
    rw [hex.out, ← hk, between_cons (Nat.lt_succ_self _), hnil]
    rfl
  have hat := hp.at_eq
  change p.pNextDecide.toNat % 10 = j at hat
  have hsucc : (p.pNextDecide + 1).toNat = p.pNextDecide.toNat + 1 := by
    rw [UInt32.toNat_add]
    exact Nat.mod_eq_of_lt hlt
  have hpage : p.page.toNat = p.pNextDecide.toNat / 10 := by rw [hp.page, toNat_toPage]
  have hseq : p.pNextDecide + 1 = p.seq (j + 1) := by rw [hp.next, Replica.seq_succ]
  have hsame : t.page = p.page := by rw [hs]; rfl
  rcases hend with ⟨hord, hpg, hslot⟩ | ⟨hten, hord, hz, hpg, -⟩
  · have hnext : u.pNextDecide = p.pNextDecide + 1 := by
      rw [hord.next, hseq, Replica.seq, Replica.seq, hpg, hsame]
    refine ⟨u, o, _, hrun, ⟨hord, ?_, ?_⟩, hnext, hone⟩
    · rw [hord.count, Finset.card_eq_zero]
      refine Finset.eq_empty_of_forall_notMem fun k' hk' => ?_
      obtain ⟨hle, hm⟩ := Replica.mem_pending.mp hk'
      rw [hslot] at hm
      exact hlater (by omega) hm
    · have hlt' : j + 1 < 10 := hord.lt
      rw [hnext, hpg, hsame]
      refine UInt32.toNat_inj.mp ?_
      rw [hpage, toNat_toPage, hsucc]
      omega
  · change j + 1 = 10 at hten
    have hnext : u.pNextDecide = p.pNextDecide + 1 := by
      have hturn : p.seq 10 = toSeq (p.page + 1) 0 := toSeq_turn p.page
      rw [hord.next, hseq, hten, hturn, Replica.seq, hpg, hsame]
    refine ⟨u, o, _, hrun, ⟨hord, hz, ?_⟩, hnext, hone⟩
    rw [hnext, hpg, hsame]
    refine UInt32.toNat_inj.mp ?_
    rw [UInt32.toNat_add, hpage, toNat_toPage, hsucc]
    change (p.pNextDecide.toNat / 10 + 1) % 2 ^ 32 = _
    omega

theorem catchupFinish_total : Total catchupFinish := by
  refine Total.bind (Total.modify _) fun _ => Total.read fun _ => Total.each fun i => ?_
  refine Total.read fun _ => Total.ite (Total.pure _) (Total.bind (Total.modify _) fun _ => ?_)
  exact Total.read fun _ => Total.when (Total.emit _)

/-- An answer for `NextDecide` is executed. -/
theorem recvCatchupRpl_takes (fr : ℕ) {t : Paxos} {m : MsgCatchupRpl} {g : Gap} (hb : Brings m g)
    (ht : t.Ready j) (hseq : g.gSeq = t.pNextDecide) (hlt : t.pNextDecide.toNat + 1 < 2 ^ 32)
    (he : e.refuse = false) :
    ∃ u o j', handle (.recv fr (.catchupRpl m)) e t = ⟨.ok (), u, o⟩ ∧ u.Ready j' ∧
      u.pNextDecide = t.pNextDecide + 1 ∧
      (executed o).map (fun g => (g.gSeq, g.gMetaCmd)) = [(g.gSeq, g.gMetaCmd)] := by
  have hk : (toK m.cSeq).val = j := by rw [hb.seq, hseq, ht.at_eq]
  have hnum : t.seq (toK m.cSeq) = g.gSeq := by
    rw [hb.seq, hseq]
    change toSeq t.page _ = _
    rw [ht.page, toSeq_toPage]
  let f := Slot.decide m.cPaxosI.pRndValue m.cMetaCmd t.pMyId fun f => { f with catchup := true }
  obtain ⟨o₁, hval, ho₁⟩ := paxosValidate_accepts he .catchup (t.seq (toK m.cSeq))
    m.cPaxosI.pRndValue m.cMetaCmd t
  obtain ⟨u, o₂, j', hexec, hu, hnext, hout⟩ := exec_next (e := e) (f := f)
    (t := t.onReplica (Replica.setSlot (toK m.cSeq) f)) rfl ht hk rfl hb.some hlt
  have hlearn : learnCatchupRpl m e t = ⟨.ok false, u, o₁ ++ o₂⟩ := by
    have hdo : (do
        modSlot (toK m.cSeq) f
        exec (toK m.cSeq) e
        pure false : PaxosM Bool) t = ⟨.ok false, u, o₂⟩ := by
      change (exec (toK m.cSeq) e >>= fun _ => pure false)
        (t.onReplica (Replica.setSlot (toK m.cSeq) f)) = _
      rw [bind_of_ok hexec]
      simp
    unfold learnCatchupRpl
    simp only [read_bind]
    rw [if_pos ⟨by rw [ht.page, hb.seq, hseq], ht.open' _ hk⟩, bind_of_ok hval, if_neg nofun, hdo]
  obtain ⟨⟨⟩, v, o₃, hrest, hsame, -, ho₃⟩ := (Stills.read fun p => Stills.ite catchupFinish_still
    (Stills.when catchupFire_still)).run (Total.read fun p => Total.ite catchupFinish_total
      (Total.when (catchupFire_total e))) u (x := do
        let p ← read
        if 0 ≤ cmp32 m.cSeq (p.pCatchupNextDecide - 1) then catchupFinish
        else when (p.pIssuedLast ≠ 0 ∧ cmp32 m.cSeq p.pIssuedSeq = 0) (catchupFire e))
  refine ⟨v, o₁ ++ o₂ ++ o₃, j', ?_, ?_, ?_, ?_⟩
  · change recvCatchupRpl fr m e t = _
    unfold recvCatchupRpl takeCatchupRpl
    rw [read_bind, if_pos hb.isTrue, bind_of_ok hlearn, if_neg nofun, hrest]
  · rw [hsame]
    exact hu
  · rw [hsame]
    exact hnext
  · rw [executed_append, executed_append, executed_of_plain ho₁,
      executed_of_plain fun x hx => (ho₃ x hx).plain, hout]
    have hcmd : ((t.onReplica (Replica.setSlot (toK m.cSeq) f)).slot (toK m.cSeq)).cMetaCmdRnd =
        m.cMetaCmd := congrArg (·.cMetaCmdRnd) (Replica.slot_setSlot_self ..)
    rw [List.nil_append, List.append_nil, List.map_singleton, Replica.decision, hcmd, hb.cmd]
    exact congrArg (fun q => [(q, g.gMetaCmd)]) hnum

/-- The answers one after the other. -/
def takeAll (fr : ℕ) (xs : List (MsgCatchupRpl × Env)) : PaxosM Unit :=
  each (fun x => handle (.recv fr (.catchupRpl x.1)) x.2) xs

/-- All answers of a row from `NextDecide` on are executed. -/
theorem takeAll_takes (fr : ℕ) {gs : List Gap} {xs : List (MsgCatchupRpl × Env)} {t : Paxos}
    (hb : List.Forall₂ Brings (xs.map (·.1)) gs) (he : ∀ x ∈ xs, x.2.refuse = false)
    (hchain : Consecutive gs) (ht : t.Ready j) (hfirst : ∀ g ∈ gs.head?, g.gSeq = t.pNextDecide)
    (hlt : t.pNextDecide.toNat + gs.length < 2 ^ 32) :
    ∃ u o, takeAll fr xs t = ⟨.ok (), u, o⟩ ∧
      u.pNextDecide = t.pNextDecide + gs.length.toUInt32 ∧
      (executed o).map (fun g => (g.gSeq, g.gMetaCmd)) = gs.map fun g => (g.gSeq, g.gMetaCmd) := by
  induction gs generalizing xs t j with
  | nil =>
      obtain rfl := List.map_eq_nil_iff.mp (List.forall₂_nil_right_iff.mp hb)
      exact ⟨t, [], rfl, (UInt32.add_zero _).symm, rfl⟩
  | cons g gs ih =>
      cases xs with
      | nil => cases hb
      | cons x xs =>
          obtain ⟨hx, hxs⟩ := List.forall₂_cons.mp hb
          rw [List.length_cons] at hlt
          have hseq : g.gSeq = t.pNextDecide := hfirst g rfl
          obtain ⟨u, o₁, j', hrun, hu, hnext, hout⟩ := recvCatchupRpl_takes fr hx ht hseq
            (by omega) (he x List.mem_cons_self)
          have hsucc : (t.pNextDecide + 1).toNat = t.pNextDecide.toNat + 1 := by
            rw [UInt32.toNat_add]
            exact Nat.mod_eq_of_lt (by change t.pNextDecide.toNat + 1 < _; omega)
          have hfirst' : ∀ g' ∈ gs.head?, g'.gSeq = u.pNextDecide := by
            intro g' hg'
            cases gs with
            | nil => cases hg'
            | cons a gs =>
                cases hg'
                rw [(List.isChain_cons_cons.mp hchain).1, hseq, hnext]
          obtain ⟨v, o₂, hrest, hend, hout'⟩ := ih hxs
            (fun y hy => he y (List.mem_cons_of_mem _ hy)) hchain.tail hu hfirst'
            (by rw [hnext, hsucc]; omega)
          refine ⟨v, o₁ ++ o₂, ?_, ?_, ?_⟩
          · unfold takeAll each
            rw [bind_of_ok hrun]
            change (⟨(takeAll fr xs u).val, (takeAll fr xs u).st, o₁ ++ (takeAll fr xs u).out⟩ :
              Outcome Paxos Out Fault Unit) = _
            rw [hrest]
          · rw [hend, hnext, List.length_cons]
            simp only [Nat.toUInt32]
            rw [UInt32.ofNat_add]
            grind
          · rw [executed_append, List.map_append, hout, hout']
            rfl

/-! ### What is retained -/

/-- The number of an executed command. -/
theorem InOrder.seq_eq (h : InOrder n o p j) {i : ℕ} {g : Gap} (hg : (executed o)[i]? = some g) :
    g.gSeq = n + i.toUInt32 := by
  obtain ⟨hi, rfl⟩ := List.getElem?_eq_some_iff.mp hg
  have hmap := congrArg (·[i]?) h.seqs
  simpa [hi] using hmap

theorem InOrder.consecutive (h : InOrder n o p j) : Consecutive (executed o) := by
  refine List.isChain_iff_getElem.mpr fun i hi => ?_
  rw [h.seq_eq (List.getElem?_eq_getElem hi), h.seq_eq (List.getElem?_eq_getElem (by omega))]
  simp only [Nat.toUInt32]
  rw [UInt32.ofNat_add, UInt32.add_assoc]
  rfl

/-- A slot that was passed has the command that was executed. -/
theorem InOrder.passed_answers (h : InOrder n o p j) (hN : (executed o).length + paxosMax ≤ 2 ^ 32)
    {g : Gap} (hg : g ∈ executed o) {x : Slot} (hp : Passed n o g.gSeq x) :
    x.pMode = .decided ∧ x.cMetaCmdRnd = g.gMetaCmd := by
  rcases hp with hb | ⟨hm, g', hg', hq, hcmd⟩
  · exact absurd hb (h.not_before hN hg)
  · have hnodup : ((executed o).map (·.gSeq)).Nodup := h.nodup (by omega)
    rw [List.inj_on_of_nodup_map hnodup hg' hg hq] at hcmd
    exact ⟨hm, hcmd.symm⟩

/-- A page between two that are retained is retained. -/
theorem Replica.Window.between (h : p.Window) {x y : UInt32} (hx : x ∈ p.pages)
    (hxy : x.toNat ≤ y.toNat) (hy : y.toNat ≤ p.page.toNat) : y ∈ p.pages := by
  have hsub {i : ℕ} (hi : i ≤ p.page.toNat) : (p.page - i.toUInt32).toNat = p.page.toNat - i := by
    have hlt := p.page.toNat_lt
    have hnat : i.toUInt32.toNat = i := UInt32.toNat_ofNat_of_lt' (by
      simp only [UInt32.size]
      omega)
    rw [UInt32.toNat_sub_of_le _ _ (UInt32.le_iff_toNat_le.mpr (by omega)), hnat]
  obtain ⟨i, hi, hget⟩ := List.mem_iff_getElem.mp hx
  have hxi := h i x (List.getElem?_eq_some_iff.mpr ⟨hi, hget⟩)
  have hle : p.page.toNat - y.toNat ≤ i := by
    by_contra hlt
    have hnat := hsub (i := i) (by omega)
    rw [← hxi] at hnat
    omega
  have hyi := h (p.page.toNat - y.toNat) _ (List.getElem?_eq_getElem (by omega))
  have heq : y = p.page - (p.page.toNat - y.toNat).toUInt32 := by
    refine UInt32.toNat_inj.mp ?_
    rw [hsub (by omega)]
    omega
  rw [heq, ← hyi]
  exact List.getElem_mem _

/-- What holds of a server in every life. -/
structure Held (n : UInt32) (o : List Out) (p : Replica) : Prop where
  placed : ∃ j, SlotPlaced n o p j
  kept : ∃ j, Kept n o p j
  settled : p.Settled fun _ _ => True

/-- The slot of an executed number whose page is retained says what was executed. -/
theorem Held.answers_one (h : Held n o p) (hn : n.toNat + (executed o).length + paxosMax ≤ 2 ^ 32)
    {x : Gap} (hx : x ∈ executed o) (hpage : toPage x.gSeq ∈ p.pages) : p.Says x := by
  obtain ⟨j, hplaced⟩ := h.placed
  obtain ⟨_, hkept⟩ := h.kept
  have hn : n.toNat + (executed o).length + 10 ≤ 2 ^ 32 := hn
  obtain ⟨mu, hmu⟩ := getPage_isSome hpage
  obtain ⟨hmem, hmup⟩ := getPage_some hmu
  have hseq : toSeq mu.pPage (toK x.gSeq) = x.gSeq := by rw [hmup, toSeq_toPage]
  have hpassed : Passed n o x.gSeq (mu.slots (toK x.gSeq)) := by
    rcases hmem with rfl | hlnk
    · have hlt : (toK x.gSeq).val < j := by
        obtain ⟨i, hi, hget⟩ := List.mem_iff_getElem.mp hx
        have hxi := hplaced.seq_eq (List.getElem?_eq_some_iff.mpr ⟨hi, hget⟩)
        have hnat : x.gSeq.toNat = n.toNat + i := by rw [hxi, toNat_add_toUInt32 (by omega)]
        have hpos := hplaced.pos (by omega)
        have hdiv := congrArg UInt32.toNat hmup
        rw [toNat_toPage, hnat] at hdiv
        change x.gSeq.toNat % 10 < j
        change p.page.toNat = _ at hdiv
        omega
      have hpast := hplaced.toInOrder.passed hlt
      rwa [show p.seq (toK x.gSeq) = x.gSeq from hseq] at hpast
    · have hpast := hkept.kept mu hlnk (toK x.gSeq)
      rwa [hseq] at hpast
  obtain ⟨hm, hcmd⟩ := hplaced.toInOrder.passed_answers (by change _ + 10 ≤ _; omega) hx hpassed
  exact ⟨mu, hmu, hm, (h.settled.slot mu (List.mem_cons.mpr hmem) _ hm).1, hcmd⟩

/-- The same of a row of numbers, the first of which is on a page that is retained. -/
theorem Held.answers (h : Held n o p) (hn : n.toNat + (executed o).length + paxosMax ≤ 2 ^ 32)
    {g : Gap} {gs : List Gap} (hL : g :: gs <:+: executed o) (hpage : toPage g.gSeq ∈ p.pages) :
    ∀ x ∈ g :: gs, p.Says x := by
  obtain ⟨j, hplaced⟩ := h.placed
  obtain ⟨pre, post, hL⟩ := hL
  have hn : n.toNat + (executed o).length + 10 ≤ 2 ^ 32 := hn
  intro x hx
  obtain ⟨i, hi, hget⟩ := List.mem_iff_getElem.mp hx
  have hat {m : ℕ} {y : Gap} (hy : (g :: gs)[m]? = some y) :
      y.gSeq.toNat = n.toNat + (pre.length + m) ∧ pre.length + m < (executed o).length := by
    have hm := (List.getElem?_eq_some_iff.mp hy).1
    have hget : (executed o)[pre.length + m]? = some y := by
      rw [← hL, List.append_assoc, List.getElem?_append_right (by omega), Nat.add_sub_cancel_left,
        List.getElem?_append_left hm, hy]
    have hlt := (List.getElem?_eq_some_iff.mp hget).1
    rw [hplaced.seq_eq hget, toNat_add_toUInt32 (by omega)]
    exact ⟨rfl, hlt⟩
  obtain ⟨hg, -⟩ := hat (m := 0) rfl
  obtain ⟨hxn, hxl⟩ := hat (List.getElem?_eq_some_iff.mpr ⟨hi, hget⟩)
  have hpos := hplaced.pos (by omega)
  have hj : j < 10 := hplaced.lt
  refine h.answers_one hn (hL ▸ List.mem_append_left _ (List.mem_append_right _ hx))
    (hplaced.window.between hpage ?_ ?_)
  · rw [toNat_toPage, toNat_toPage]
    omega
  · rw [toNat_toPage]
    omega

end

theorem Life.held {cfg : Config} {j : ℕ} {o : List Out} {s : Option Paxos}
    (h : Life (fun _ _ _ => True) (cfg.server j) o s) :
    ∃ p, Held (cfg.server j).pNextDecide o p ∧ ∀ t ∈ s, t.toReplica = p := by
  refine h.invariant (I := fun o p => Held (cfg.server j).pNextDecide o p)
    ⟨start_placed .., cfg.server_kept j, cfg.server_settled j⟩ fun {o₀ ρ i e o p} h₀ _ hm => ?_
  obtain ⟨k, hplaced⟩ := h₀.placed
  obtain ⟨k', hkept⟩ := h₀.kept
  refine ⟨hm.invariant (I := fun o p => ∃ k, SlotPlaced _ (o₀ ++ o) p k)
    ⟨k, by rwa [List.append_nil]⟩ fun ⟨_, ht⟩ hu => ?_, ?_, (hm.commands h₀.settled).1⟩
  · rw [← List.append_assoc]
    exact ht.move hu
  · obtain ⟨l, hspeaks⟩ := hm.speaks hkept
    exact ⟨l, hspeaks.kept⟩

theorem trio_behind : trio.up 0 = true ∧ trio.up 2 = true ∧ (trio.srv 2).pNextDecide = 0 ∧
    (trio.srv 2).page = 0 ∧ (trio.srv 2).pGaps.hCount = 0 ∧ 0 ∈ (trio.srv 0).pages ∧
    ((trio.srv 0).pServer 2).sActive = true ∧ (trioCell.server 0).pNextDecide = 0 := by
  decide +kernel

end PaxosSolutions
