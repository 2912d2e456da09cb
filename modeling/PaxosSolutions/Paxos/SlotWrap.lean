import PaxosSolutions.Paxos.InOrder

/-!
# Slots and sequence numbers across the wrap

`TO_PAGE` and `TO_K` divide the sequence number, and `UpdatePage` counts pages
on its own. Ten does not divide the range of the sequence numbers, so the two
agree only as long as `NextDecide` has not begun anew at zero. Two slots of the
pages that are retained have the same number only if there are more of them than
numbers.
-/
namespace PaxosSolutions
open NWGadget Lib

/-- The slot after slot `k` of a page, which `UpdatePage` ends after the last one. -/
def slotAfter (max : ℕ) (m : Multi) (k : ℕ) : UInt32 × ℕ :=
  if k + 1 < paxosMax then (m.pPage, k + 1) else ((m.next max).pPage, (m.next max).pNextK)

/-- The slot of the sequence number after `seq` is the one after the slot of `seq`. -/
def SlotFollows (seq : UInt32) : Prop :=
  ∀ (max : ℕ) (m : Multi), m.pPage = toPage seq →
    (toPage (seq + 1), (toK (seq + 1)).val) = slotAfter max m (toK seq)

/-- The numbers of the page and of the pages retained -/
def Replica.pages (p : Replica) : List UInt32 := p.page :: p.pMultiLnk.map (·.pPage)

/-- What the sequence numbers from `first` on, up to `NextDecide`, have to do with the slots. -/
structure SlotsRight (first : UInt32) (o : List Out) (p : Replica) : Prop where
  follows : ∀ n < (executed o).length, SlotFollows (first + n.toUInt32)
  back : ∀ seq, toSeq (toPage seq) (toK seq) = seq
  here : p.page = toPage p.pNextDecide
  apart : ∀ x ∈ p.pages, ∀ y ∈ p.pages, ∀ k k' : K, toSeq x k = toSeq y k' → x = y ∧ k = k'
  executes : ∀ n < (executed o).length, toPage (first + n.toUInt32) = p.page →
    (executed o)[n]? = some (p.decision (toK (first + n.toUInt32)))

theorem toNat_toPage (seq : UInt32) : (toPage seq).toNat = seq.toNat / 10 :=
  UInt32.toNat_div seq 10

theorem toNat_add_toUInt32 {first : UInt32} {n : ℕ} (h : first.toNat + n < 2 ^ 32) :
    (first + n.toUInt32).toNat = first.toNat + n := by
  rw [UInt32.toNat_add, Nat.toUInt32, UInt32.toNat_ofNat_of_lt' (by simp only [UInt32.size]; omega),
    Nat.mod_eq_of_lt h]

/-- The slots follow each other except at the wrap. -/
theorem slotFollows_iff (seq : UInt32) : SlotFollows seq ↔ seq ≠ 0xFFFFFFFF := by
  constructor
  · rintro h rfl
    have hslot := h 0 { pPage := toPage 0xFFFFFFFF } rfl
    revert hslot
    decide
  · intro hne max m hm
    have hlt : seq.toNat + 1 < 2 ^ 32 := by
      have hseq : seq.toNat ≠ 0xFFFFFFFF := fun h => hne (UInt32.toNat_inj.mp h)
      have hbound := seq.toNat_lt
      omega
    have hsucc : (seq + 1).toNat = seq.toNat + 1 := by
      rw [UInt32.toNat_add]
      exact Nat.mod_eq_of_lt hlt
    unfold slotAfter
    by_cases hk : (toK seq).val + 1 < paxosMax
    · rw [if_pos hk, hm]
      change seq.toNat % 10 + 1 < 10 at hk
      refine Prod.ext (UInt32.toNat_inj.mp ?_) ?_
      · change (toPage (seq + 1)).toNat = (toPage seq).toNat
        rw [toNat_toPage, toNat_toPage, hsucc]
        omega
      · change (seq + 1).toNat % 10 = seq.toNat % 10 + 1
        rw [hsucc]
        omega
    · rw [if_neg hk]
      change ¬ seq.toNat % 10 + 1 < 10 at hk
      refine Prod.ext (UInt32.toNat_inj.mp ?_) ?_
      · change (toPage (seq + 1)).toNat = (m.pPage + 1).toNat
        rw [hm, UInt32.toNat_add, toNat_toPage, toNat_toPage, hsucc]
        change (seq.toNat + 1) / 10 = (seq.toNat / 10 + 1) % 2 ^ 32
        omega
      · change (seq + 1).toNat % 10 = 0
        rw [hsucc]
        omega

/-- The sequence numbers that `NextDecide` has gone through have their slots one after
the other exactly if it has not begun anew. -/
theorem follows_all_iff (first : UInt32) (len : ℕ) :
    (∀ n < len, SlotFollows (first + n.toUInt32)) ↔ first.toNat + len < 2 ^ 32 := by
  have hfirst := first.toNat_lt
  constructor
  · intro h
    by_contra hge
    have hn : 0xFFFFFFFF - first.toNat < len := by omega
    refine (slotFollows_iff _).mp (h _ hn) (UInt32.toNat_inj.mp ?_)
    rw [toNat_add_toUInt32 (by omega)]
    change first.toNat + (0xFFFFFFFF - first.toNat) = 0xFFFFFFFF
    omega
  · intro h n hn
    rw [slotFollows_iff]
    intro heq
    have hnat := congrArg UInt32.toNat heq
    rw [toNat_add_toUInt32 (by omega)] at hnat
    change first.toNat + n = 0xFFFFFFFF at hnat
    omega

/-! ### The pages retained -/

/-- The pages retained are those before the page, the newest first. -/
def Replica.Window (p : Replica) : Prop :=
  ∀ (i : ℕ) (x : UInt32), p.pages[i]? = some x → x = p.page - i.toUInt32

theorem ExecMove.window {k : K} {p p' : Replica} {o : List Out} (h : ExecMove k p o p')
    (hp : p.Window) : p'.Window := by
  cases h with
  | @turn lnk hl =>
      rintro (_ | i) x hx
      · cases hx
        change p.page + 1 = p.page + 1 - 0
        grind
      · obtain ⟨t, ht⟩ := hl.map (·.pPage)
        change (lnk.map (·.pPage))[i]? = some x at hx
        have hold : p.pages[i]? = some x := by
          have hpages : p.pages = lnk.map (·.pPage) ++ t := ht.symm
          have hi : i < (lnk.map (·.pPage)).length := (List.getElem?_eq_some_iff.mp hx).1
          rw [hpages, List.getElem?_append_left hi]
          exact hx
        rw [hp i x hold]
        change p.page - i.toUInt32 = p.page + 1 - (i + 1).toUInt32
        simp only [Nat.toUInt32]
        rw [UInt32.ofNat_add]
        grind
  | _ => exact hp

theorem Execs.window {k : K} {p p' : Replica} {o : List Out} (h : Execs k p o p')
    (hm : (p.slot k).pMode = .decided) (hp : p.Window) : p'.Window :=
  (h.goes hm).invariant (I := fun _ q => q.Window) hp fun ht hu => hu.window ht

theorem Move.window {ρ : Paxos} {i : Input} {e : Env} {p p' : Replica} {o : List Out}
    (h : Move ρ i e p o p') (hp : p.Window) : p'.Window := by
  cases h with
  | newRound hi hp₀ hc hp' ho =>
      rw [hp']
      exact hp
  | request hi hp₀ hcmd hN hmy hpage hk hm hc hown hq ho ho' =>
      rw [hq]
      exact hp
  | decide hi hr hpage hm hme hq hf hc ho he =>
      refine he.window ?_ hp
      rw [Replica.slot_setSlot_self]
      rfl
  | learn hi hp₀ hm hc he =>
      refine he.window ?_ hp
      rw [Replica.slot_setSlot_self]
      rfl
  | sole hi hN hm ha hc ho he =>
      refine he.window ?_ hp
      rw [Replica.slot_setSlot_self]
      rfl
  | _ => exact hp

/-- The pages retained share no number exactly if they have no more than there are. -/
theorem apart_iff {p : Replica} (hp : p.Window) :
    (∀ x ∈ p.pages, ∀ y ∈ p.pages, ∀ k k' : K, toSeq x k = toSeq y k' → x = y ∧ k = k') ↔
      p.pages.length ≤ 429496729 := by
  constructor
  · intro h
    by_contra hlen
    rw [not_le] at hlen
    -- the numbers of slot 6 of the page and of slot 0 of the oldest one are the same
    have hmem := List.getElem_mem hlen
    have hold := hp 429496729 _ (List.getElem?_eq_getElem hlen)
    rw [hold] at hmem
    have hsame : toSeq p.page (6 : K) = toSeq (p.page - (429496729 : ℕ).toUInt32) (0 : K) := by
      unfold toSeq
      have hturn : (429496729 : ℕ).toUInt32 * 10 + 6 = 0 := by decide
      change p.page * 10 + 6 = (p.page - (429496729 : ℕ).toUInt32) * 10 + 0
      grind
    exact absurd (h _ List.mem_cons_self _ hmem 6 0 hsame).2 (by decide)
  · intro hlen x hx y hy k k' hseq
    obtain ⟨i, hi, hxi⟩ := List.mem_iff_getElem.mp hx
    obtain ⟨j, hj, hyj⟩ := List.mem_iff_getElem.mp hy
    have hxp := hp i x (by rw [List.getElem?_eq_getElem hi, hxi])
    have hyp := hp j y (by rw [List.getElem?_eq_getElem hj, hyj])
    have hk : k.val < 10 := k.isLt
    have hk' : k'.val < 10 := k'.isLt
    have hnat : (j * 10 + k.val).toUInt32 = (i * 10 + k'.val).toUInt32 := by
      simp only [Nat.toUInt32]
      rw [UInt32.ofNat_add, UInt32.ofNat_add, UInt32.ofNat_mul, UInt32.ofNat_mul]
      rw [hxp, hyp] at hseq
      unfold toSeq at hseq
      simp only [Nat.toUInt32] at hseq
      change UInt32.ofNat j * 10 + _ = UInt32.ofNat i * 10 + _
      grind
    have hval := congrArg UInt32.toNat hnat
    simp only [Nat.toUInt32] at hval
    rw [UInt32.toNat_ofNat_of_lt' (by simp only [UInt32.size]; omega),
      UInt32.toNat_ofNat_of_lt' (by simp only [UInt32.size]; omega)] at hval
    have hij : i = j := by omega
    refine ⟨by rw [hxp, hyp, hij], Fin.ext ?_⟩
    omega

/-! ### Runs -/

/-- What holds after every row of moves: as long as `NextDecide` has not begun anew, the
page and the slot it is at are those of its number. -/
structure SlotPlaced (first : UInt32) (o : List Out) (p : Replica) (j : ℕ) : Prop
    extends InOrder first o p j where
  window : p.Window
  pos : first.toNat + (executed o).length < 2 ^ 32 →
    p.page.toNat * 10 + j = first.toNat + (executed o).length

theorem SlotPlaced.move {first : UInt32} {o₀ o : List Out} {ρ : Paxos} {i : Input} {e : Env}
    {p p' : Replica} {j : ℕ} (hp : SlotPlaced first o₀ p j) (h : Move ρ i e p o p') :
    ∃ j', SlotPlaced first (o₀ ++ o) p' j' := by
  have hwindow := h.window hp.window
  rcases h.calm_or_decides with ⟨hc, ho⟩ | ⟨k, f, o₁, o₂, rfl, ho₁, hd⟩
  · refine ⟨j, hp.toInOrder.calm hc ho, hwindow, ?_⟩
    rw [executed_append, executed_of_plain ho, List.append_nil, hc.page]
    exact hp.pos
  · have hlen₁ : executed (o₀ ++ o₁) = executed o₀ := by
      rw [executed_append, executed_of_plain ho₁, List.append_nil]
    obtain ⟨j', hex, -, hend⟩ := (hp.toInOrder.calm (.refl p) ho₁).decides hd
    rw [← List.append_assoc]
    have hlen : j' ≤ paxosMax →
        (executed ((o₀ ++ o₁) ++ o₂)).length = (executed o₀).length + (j' - j) := by
      intro hj'
      rw [executed_append, List.length_append, hlen₁, hex.length hj']
    have hle := hex.le
    rcases hend with ⟨hord, hpage, -⟩ | ⟨rfl, hord, hthrough, -⟩
    · refine ⟨j', hord, hwindow, fun hlt => ?_⟩
      rw [hlen hord.le] at hlt ⊢
      have hpos := hp.pos (by omega)
      rw [hpage]
      omega
    · refine ⟨0, hord, hwindow, fun hlt => ?_⟩
      rw [hlen le_rfl] at hlt ⊢
      have hpos := hp.pos (by omega)
      rw [hthrough.page, UInt32.toNat_add]
      change (p.page.toNat + 1) % 2 ^ 32 * 10 + 0 = _
      change j ≤ 10 at hle
      change _ = first.toNat + ((executed o₀).length + (10 - j))
      omega

/-- `PaxosStart` puts the page and the slot where the first number is. -/
theorem start_placed (mode : StartMode) (first : UInt32) (id core extension : ℕ)
    (active : ℕ → Bool) (usec : ℤ) (e : Env) :
    ∃ j, SlotPlaced (paxosStart mode first (paxosInit id core extension active usec e)).pNextDecide []
      (paxosStart mode first (paxosInit id core extension active usec e)).toReplica j := by
  obtain ⟨j, hord⟩ := start_inOrder mode first id core extension active usec e
  have hlnk : (paxosStart mode first (paxosInit id core extension active usec e)).pMultiLnk = [] := by
    cases mode with
    | noSeq | wait | seq => rfl
  have hpage : (paxosStart mode first (paxosInit id core extension active usec e)).page =
      toPage (paxosStart mode first (paxosInit id core extension active usec e)).pNextDecide := by
    have hzero : (0 : UInt32) = toPage 0 := by decide
    cases mode with
    | noSeq | wait => exact hzero
    | seq => rfl
  generalize paxosStart mode first (paxosInit id core extension active usec e) = s at *
  refine ⟨j, hord, ?_, fun _ => ?_⟩
  · rintro (_ | i) x hx
    · cases hx
      change s.page = s.page - 0
      grind
    · change (s.pMultiLnk.map (·.pPage))[i]? = some x at hx
      rw [hlnk] at hx
      cases hx
  · have hj : j = (toK s.pNextDecide).val := by
      refine (Replica.seq_inj hord.le (toK s.pNextDecide).isLt.le).mp (hord.next.symm.trans ?_)
      change s.pNextDecide = toSeq s.page _
      rw [hpage, toSeq_toPage]
    rw [hpage, toNat_toPage, hj]
    change s.pNextDecide.toNat / 10 * 10 + s.pNextDecide.toNat % 10 = s.pNextDecide.toNat + 0
    omega

/-- A number that `NextDecide` has reached has its slot on the page it is on. -/
theorem SlotPlaced.here {first : UInt32} {o : List Out} {p : Replica} {j : ℕ} (h : SlotPlaced first o p j)
    (hlt : first.toNat + (executed o).length < 2 ^ 32) : p.page = toPage p.pNextDecide := by
  have hpos := h.pos hlt
  have hj : j < 10 := h.lt
  rw [h.reached]
  refine UInt32.toNat_inj.mp ?_
  rw [toNat_toPage, toNat_add_toUInt32 hlt]
  omega

/-- What was executed under a number of the page is what the slot of the number says. -/
theorem SlotPlaced.executed_eq {first : UInt32} {o : List Out} {p : Replica} {j n : ℕ}
    (h : SlotPlaced first o p j) (hlt : first.toNat + (executed o).length < 2 ^ 32)
    (hn : n < (executed o).length) (hpage : toPage (first + n.toUInt32) = p.page) :
    (executed o)[n]? = some (p.decision (toK (first + n.toUInt32))) := by
  have hpos := h.pos hlt
  have hnat : (first + n.toUInt32).toNat = first.toNat + n := toNat_add_toUInt32 (by omega)
  have hj : j < 10 := h.lt
  have hdiv := congrArg UInt32.toNat hpage
  rw [toNat_toPage, hnat] at hdiv
  have hk : (toK (first + n.toUInt32)).val = (first.toNat + n) % 10 := by
    change (first + n.toUInt32).toNat % 10 = _
    rw [hnat]
  obtain ⟨-, hget⟩ := h.before (toK (first + n.toUInt32)) (by omega) (by omega)
  rw [← hget]
  congr 1
  omega

/-- In every state that a replica reaches, the slots are right if and only if `NextDecide`
has not begun anew and no more pages are retained than have numbers of their own. -/
theorem slots_right_iff {mode : StartMode} {first : UInt32} {id core extension : ℕ}
    {active : ℕ → Bool} {usec : ℤ} {e₀ : Env} {o : List Out} {s : Paxos}
    (h : Life (fun _ _ _ => True)
      (paxosStart mode first (paxosInit id core extension active usec e₀)) o (some s)) :
    SlotsRight (paxosStart mode first (paxosInit id core extension active usec e₀)).pNextDecide o
        s.toReplica ↔
      (paxosStart mode first (paxosInit id core extension active usec e₀)).pNextDecide.toNat +
          (executed o).length < 2 ^ 32 ∧
        s.pages.length ≤ 429496729 := by
  obtain ⟨p, ⟨j, hp⟩, hs⟩ := h.invariant (I := fun o p => ∃ j, SlotPlaced
    (paxosStart mode first (paxosInit id core extension active usec e₀)).pNextDecide o p j)
    (start_placed ..) fun {o₀ ρ i e o p} h₀ _ hm => hm.invariant
      (I := fun o p => ∃ j, SlotPlaced _ (o₀ ++ o) p j)
      (by rwa [List.append_nil]) fun ⟨_, ht⟩ hu => by
        rw [← List.append_assoc]
        exact ht.move hu
  rw [← hs s rfl] at hp
  constructor
  · intro hright
    exact ⟨(follows_all_iff _ _).mp hright.follows, (apart_iff hp.window).mp hright.apart⟩
  · rintro ⟨hlt, hlen⟩
    exact ⟨(follows_all_iff _ _).mpr hlt, toSeq_toPage, hp.here hlt, (apart_iff hp.window).mpr hlen,
      fun _ => hp.executed_eq hlt⟩

theorem slots_right_iff_sole :
    SlotsRight 8 ([] ++ soleRound.out ++ soleFirst.out) soleFirst.st.toReplica :=
  (slots_right_iff sole_life).mpr ⟨by decide +kernel, by decide +kernel⟩

/-- A single server that begins with the last sequence number there is. -/
def lastStart : Paxos := paxosStart .seq 0xFFFFFFFF (paxosInit 0 1 0 (fun _ => true) 20000 {})

abbrev lastRound : Outcome Paxos Out Fault Unit := handle .detector {} lastStart
abbrev lastFirst : Outcome Paxos Out Fault Unit := handle (.request [98] false) {} lastRound.st

theorem last_life :
    Life (fun _ _ _ => True) lastStart ([] ++ lastRound.out ++ lastFirst.out) (some lastFirst.st) :=
  .step (.step .start trivial rfl) trivial rfl

/-- After the last number the page goes on with slot 6, but zero is slot 0 of page 0. -/
theorem slots_not_right :
    ¬ ∀ (first : UInt32) (o : List Out) (s : Paxos),
      Life (fun _ _ _ => True) (paxosStart .seq first (paxosInit 0 1 0 (fun _ => true) 20000 {})) o
        (some s) → SlotsRight first o s.toReplica := by
  intro h
  have hfollows := (h 0xFFFFFFFF _ _ last_life).follows 0 (by decide +kernel)
  exact (slotFollows_iff _).mp hfollows rfl

end PaxosSolutions
