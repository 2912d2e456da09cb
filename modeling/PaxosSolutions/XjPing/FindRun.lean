import PaxosSolutions.XjPing.FindPages
import Mathlib.Algebra.Ring.Nat

/-!
# Calls of a search one after the other

Each call goes on at the cursor. What the calls return is the first part of what there
is to find, and a call that finds the record it ends at locked answers so and leaves the
cursor there. Each reply is sent from the buffer of the call, which is freed with the
first of them.
-/
namespace PaxosSolutions.XjPing
open Lib

/-- Requests for `nums` records one after the other, whose replies are sent. -/
def findCalls (ud : Usr) (mode : RLock) (check : RHead → Option Bool) : List ℕ → TblM (List FindOut)
  | [] => return []
  | num :: nums => do
      let out ← svcFindReplies svcLoad (fun _ => true) ud mode check num
      let outs ← findCalls ud mode check nums
      return out :: outs

/-! ### What is asked of the calls -/

/-- A reply says that there is more if and only if another one follows, which may be the
one of an error. -/
def FindOut.MoreRight (out : FindOut) : Prop :=
  ∀ i (hi : i < out.replies.length), (out.replies[i]).fMore = true ↔
    i + 1 < out.replies.length ∨ ∃ e, out.stop = .err e

section Right
variable (check : RHead → Option Bool) (w : ℕ → RRec)

/-- A call for `num` records with the slots `F` to find up to the slot `stop` -/
structure CallRight (F : List ℕ) (stop : Option ℕ) (num : ℕ) (out : FindOut) : Prop where
  records : out.records.map RHead.bare = (F.take num).map fun i => (w i).rHead.bare
  more : out.MoreRight
  ends : out.stop = .ok ∧ (num ≤ F.length ∨ stop = none) ∨
    out.stop = .err .recBusy ∧ F.length < num ∧ ∃ i, stop = some i ∧ stopErr check (w i) = .recBusy

/-- Each call goes on with what the calls before it have left. -/
inductive CallsRight : List ℕ → Option ℕ → List ℕ → List FindOut → Prop
  | nil (F : List ℕ) (stop : Option ℕ) : CallsRight F stop [] []
  | cons {F nums : List ℕ} {stop : Option ℕ} {num : ℕ} {out : FindOut} {outs : List FindOut} :
      CallRight check w F stop num out → CallsRight (F.drop num) stop nums outs →
        CallsRight F stop (num :: nums) (out :: outs)

end Right

/-- Who has locked a record, and how -/
def RRec.held (r : RRec) : Bool × Bool × Option Usr := (r.rStat.exclusive, r.rStat.share, r.rAccess)

namespace RTbl

/-- The slots a search finds from its cursor on, where `w` are the records -/
def finds (td : RTbl) (ud : Usr) (mode : RLock) (check : RHead → Option Bool) (w : ℕ → RRec) : List ℕ :=
  foundFrom ud mode check w (td.tRecNum - td.uCursor ud) (td.uCursor ud)

/-- The slot a search ends at -/
def endsAt (td : RTbl) (ud : Usr) (mode : RLock) (check : RHead → Option Bool) (w : ℕ → RRec) :
    Option ℕ :=
  stopFrom ud mode check w (td.tRecNum - td.uCursor ud) (td.uCursor ud)

/-- The slots as the loads of a search leave them -/
def read (td : RTbl) (ud : Usr) : ℕ → RRec :=
  (td.ensureFrom td.pageNum (td.tRecNum - td.uCursor ud) (td.uCursor ud)).tRec

end RTbl

/-- The calls return each record that is found once and in order, a call that ends at a
locked record leaves the cursor there, and exactly the returned records are locked. -/
structure FindsRight (ud : Usr) (mode : RLock) (check : RHead → Option Bool) (w : ℕ → RRec) (td : RTbl)
    (nums : List ℕ) (outs : List FindOut) (u : RTbl) : Prop where
  calls : CallsRight check w (td.finds ud mode check w) (td.endsAt ud mode check w) nums outs
  cursor : ∀ i, td.endsAt ud mode check w = some i → (td.finds ud mode check w).length < nums.sum →
    u.uCursor ud = i
  locks : ∀ j, (u.tRec j).held = (if j ∈ (td.finds ud mode check w).take nums.sum
    then (td.tRec j).lockedBy ud mode else td.tRec j).held

/-- The next thing a search comes to is a record that is locked against it. -/
def Barred (ud : Usr) (mode : RLock) (check : RHead → Option Bool) (w : ℕ → RRec) (td : RTbl) (i : ℕ) :
    Prop :=
  td.finds ud mode check w = [] ∧ td.endsAt ud mode check w = some i ∧ stopErr check (w i) = .recBusy

/-- The condition can be evaluated on each record that the calls come to. -/
def Evaluable (check : RHead → Option Bool) (w : ℕ → RRec) (F : List ℕ) (stop : Option ℕ) (a : ℕ) : Prop :=
  a ≤ F.length ∨ ∀ i, stop = some i → stopErr check (w i) = .recBusy

variable {td td₀ u : RTbl} {ud : Usr} {mode : RLock} {check : RHead → Option Bool} {v w : ℕ → RRec}
  {pn n c c' i j num : ℕ} {S T F nums : List ℕ} {stop : Option ℕ} {out : FindOut} {outs : List FindOut}

/-! ### One call -/

theorem stopFrom_mem {k : ℕ} (h : stopFrom ud mode check v k c = some i) : c ≤ i ∧ i < c + k :=
  List.mem_range'_1.mp (List.mem_of_find?_eq_some h)

theorem foundFrom_mem {k : ℕ} (h : i ∈ foundFrom ud mode check v k c) : c ≤ i ∧ i < c + k :=
  List.mem_range'_1.mp ((List.takeWhile_sublist _).subset (List.mem_of_mem_filter h))

theorem foundFrom_length (ud : Usr) (mode : RLock) (check : RHead → Option Bool) (v : ℕ → RRec)
    (k c : ℕ) : (foundFrom ud mode check v k c).length ≤ k := by
  have hsub : (foundFrom ud mode check v k c).Sublist (List.range' c k) :=
    List.filter_sublist.trans (List.takeWhile_sublist _)
  have hlen := hsub.length_le
  rwa [List.length_range'] at hlen

/-- Nothing is found at a slot that ends the search. -/
theorem foundFrom_nil (h : stopFrom ud mode check v (n - c) c = some c) :
    foundFrom ud mode check v (n - c) c = [] := by
  have hc : c < n := by
    have := stopFrom_mem h
    omega
  rw [foundFrom_lt hc, if_pos]
  by_contra hstop
  rw [stopFrom_lt hc, if_neg hstop] at h
  have := stopFrom_mem h
  omega

theorem stopErr_cases (check : RHead → Option Bool) (r : RRec) :
    stopErr check r = .search ∨ stopErr check r = .recBusy := by
  unfold stopErr
  split
  · exact .inl rfl
  · exact .inr rfl

section Call
variable {M : ℕ} (h : CallFrom pn n ud mode check td₀ v c S num M out u T c')
include h

theorem CallFrom.drop_eq : foundFrom ud mode check v (n - c') c' =
    (foundFrom ud mode check v (n - c) c).drop num ∧ T = (foundFrom ud mode check v (n - c) c).take num := by
  have hlast (hlt : T.length < num) (hnil : foundFrom ud mode check v (n - c') c' = []) :
      foundFrom ud mode check v (n - c') c' = (foundFrom ud mode check v (n - c) c).drop num ∧
        T = (foundFrom ud mode check v (n - c) c).take num := by
    rw [h.found.found, hnil, List.append_nil, List.drop_of_length_le (Nat.le_of_lt hlt),
      List.take_of_length_le (Nat.le_of_lt hlt)]
    exact ⟨rfl, rfl⟩
  have hends := h.ends
  cases hs : out.stop with
  | ok =>
      rw [hs] at hends
      rcases hends with hlen | ⟨hlt, hnil, -⟩
      · rw [h.found.found, ← hlen, List.drop_left, List.take_left]
        exact ⟨rfl, rfl⟩
      · exact hlast hlt hnil
  | err e =>
      rw [hs] at hends
      exact hlast hends.1 (foundFrom_nil hends.2.1)
  | linkDown =>
      rw [hs] at hends
      exact hends.elim
  | running =>
      rw [hs] at hends
      exact hends.elim

theorem CallFrom.length_eq : T.length = min num (foundFrom ud mode check v (n - c) c).length := by
  have hlen := congrArg List.length h.drop_eq.2
  rwa [List.length_take] at hlen

theorem CallFrom.cursor_eq (hstop : stopFrom ud mode check v (n - c) c = some i)
    (hlt : (foundFrom ud mode check v (n - c) c).length < num) : c' = i := by
  have hlen := h.length_eq
  have hends := h.ends
  rw [h.found.stop] at hstop
  cases hs : out.stop with
  | ok =>
      rw [hs] at hends
      rcases hends with hfull | ⟨-, -, hnone⟩
      · omega
      · cases hnone.symm.trans hstop
  | err e =>
      rw [hs] at hends
      exact Option.some.inj (hends.2.1.symm.trans hstop)
  | linkDown =>
      rw [hs] at hends
      exact hends.elim
  | running =>
      rw [hs] at hends
      exact hends.elim

theorem CallFrom.not_search (heval : Evaluable check v (foundFrom ud mode check v (n - c) c)
    (stopFrom ud mode check v (n - c) c) num) : out.stop ≠ .err .search := by
  intro hs
  have hlen := h.length_eq
  have hends := h.ends
  rw [hs] at hends
  obtain ⟨hlt, hstop, herr⟩ := hends
  rcases heval with hle | hall
  · omega
  · rw [hall c' (h.found.stop.trans hstop)] at herr
    cases herr

/-- A call is right if the condition can be evaluated on what it comes to. -/
theorem CallFrom.right (heval : Evaluable check v (foundFrom ud mode check v (n - c) c)
    (stopFrom ud mode check v (n - c) c) num) :
    CallRight check v (foundFrom ud mode check v (n - c) c) (stopFrom ud mode check v (n - c) c) num out := by
  have hne := h.not_search heval
  have hlen := h.length_eq
  refine ⟨?_, h.more, ?_⟩
  · rw [h.bare, returnedOf, if_neg hne, h.drop_eq.2]
  · have hends := h.ends
    rw [h.found.stop]
    cases hs : out.stop with
    | ok =>
        rw [hs] at hends
        exact .inl ⟨rfl, hends.imp (by omega) fun hlast => hlast.2.2⟩
    | err e =>
        rw [hs] at hends hne
        obtain ⟨hlt, hstop, herr⟩ := hends
        rcases stopErr_cases check (v c') with hsearch | hbusy
        · exact absurd (congrArg FindStop.err (herr.symm.trans hsearch)) hne
        · obtain rfl : e = .recBusy := herr.symm.trans hbusy
          exact .inr ⟨rfl, by omega, c', hstop, herr⟩
    | linkDown =>
        rw [hs] at hends
        exact hends.elim
    | running =>
        rw [hs] at hends
        exact hends.elim

end Call

/-- A call on a table that the user may search -/
theorem svcFindReplies_spec (check : RHead → Option Bool) (h : Seen pn n ud mode td₀ v c S td)
    (hpn : td₀.pageNum = pn) (hlock : td₀.checkLock ud mode.on = false) (hnum : 1 ≤ num) :
    ∃ out u T c', perform (svcFindReplies svcLoad (fun _ => true) ud mode check num) td =
        .ok (.ok out, u) ∧
      CallFrom pn n ud mode check td₀ v c S num (max 1 (min num pn)) out u T c' := by
  have hlock' : td.checkLock ud mode.on = false :=
    (congrArg (fun t : RTbl => t.checkLock ud mode.on) h.apart).trans hlock
  have hpn' : td.pageNum = pn := (congrArg RTbl.pageNum h.apart).trans hpn
  have hfuel : (foundFrom ud mode check v (n - c) c).length < td.tRecNum + 2 := by
    have := foundFrom_length ud mode check v (n - c) c
    rw [h.num]
    omega
  unfold svcFindReplies
  rw [perform_bind_of_ok perform_get, hlock', hpn']
  exact findReplies_spec (fun _ => rfl) _ 0 0 false h hnum hfuel

/-! ### The run -/

/-- What comes of the calls from the cursor `c` on -/
structure RunFrom (pn n : ℕ) (ud : Usr) (mode : RLock) (check : RHead → Option Bool) (td₀ : RTbl)
    (v : ℕ → RRec) (c : ℕ) (S nums : List ℕ) (outs : List FindOut) (u : RTbl) (c' : ℕ) : Prop where
  seen : Seen pn n ud mode td₀ v c' (S ++ (foundFrom ud mode check v (n - c) c).take nums.sum) u
  cursor : ∀ i, stopFrom ud mode check v (n - c) c = some i →
    (foundFrom ud mode check v (n - c) c).length < nums.sum ∨ c = i → c' = i
  right : Evaluable check v (foundFrom ud mode check v (n - c) c) (stopFrom ud mode check v (n - c) c)
    nums.sum → CallsRight check v (foundFrom ud mode check v (n - c) c)
      (stopFrom ud mode check v (n - c) c) nums outs
  kept : ∀ out ∈ outs, BufferKept out.uses ↔ (∃ e, out.stop = .err e) ∧ out.records = []
  first : ∀ out ∈ outs.head?, out.stop = .err .recBusy → out.records = [] →
    ∃ i, foundFrom ud mode check v (n - c) c = [] ∧ stopFrom ud mode check v (n - c) c = some i ∧
      stopErr check (v i) = .recBusy

theorem Evaluable.add {a b : ℕ} : Evaluable check v F stop (a + b) ↔
    Evaluable check v F stop a ∧ Evaluable check v (F.drop a) stop b := by
  unfold Evaluable
  rw [List.length_drop]
  constructor
  · rintro (hle | hall)
    · exact ⟨.inl (by omega), .inl (by omega)⟩
    · exact ⟨.inr hall, .inr hall⟩
  · rintro ⟨hle | hall, hle' | hall'⟩
    · exact .inl (by omega)
    · exact .inr hall'
    · exact .inr hall
    · exact .inr hall

/-- Calls that are right come to no record on which the condition fails. -/
theorem CallsRight.evaluable (h : CallsRight check w F stop nums outs) :
    Evaluable check w F stop nums.sum := by
  induction h with
  | nil F stop => exact .inl (Nat.zero_le _)
  | @cons F nums stop num out outs hcall _ ih =>
      rw [List.sum_cons, Evaluable.add]
      refine ⟨?_, ih⟩
      rcases hcall.ends with ⟨-, hle | hnone⟩ | ⟨-, -, i, hi, herr⟩
      · exact .inl hle
      · refine .inr fun i hi => ?_
        cases hnone.symm.trans hi
      · refine .inr fun j hj => ?_
        obtain rfl := Option.some.inj (hi.symm.trans hj)
        exact herr

theorem RunFrom.nil (h : Seen pn n ud mode td₀ v c S td) :
    RunFrom pn n ud mode check td₀ v c S [] [] td c where
  seen := by
    rw [List.sum_nil, List.take_zero, List.append_nil]
    exact h
  cursor i _ hi := hi.resolve_left (Nat.not_lt_zero _)
  right _ := .nil _ _
  kept out hout := absurd hout List.not_mem_nil
  first out hout := by cases hout

theorem RunFrom.cons {M c₁ : ℕ} {u₁ : RTbl}
    (hcall : CallFrom pn n ud mode check td₀ v c S num M out u₁ T c₁) (hnum : 1 ≤ num)
    (h : RunFrom pn n ud mode check td₀ v c₁ (S ++ T) nums outs u c') :
    RunFrom pn n ud mode check td₀ v c S (num :: nums) (out :: outs) u c' where
  seen := by
    have hseen := h.seen
    rw [hcall.drop_eq.1, hcall.drop_eq.2, List.append_assoc, ← List.take_add] at hseen
    exact hseen
  cursor i hi hlt := by
    have hi' := hi
    rw [hcall.found.stop] at hi'
    refine h.cursor i hi' ?_
    rw [hcall.drop_eq.1, List.length_drop]
    by_cases hle : num ≤ (foundFrom ud mode check v (n - c) c).length
    · refine .inl ?_
      rcases hlt with hlt | rfl
      · rw [List.sum_cons] at hlt
        omega
      · rw [foundFrom_nil hi] at hle
        exact absurd hle (Nat.not_le.mpr hnum)
    · exact .inr (hcall.cursor_eq hi (Nat.lt_of_not_le hle))
  right heval := by
    rw [List.sum_cons, Evaluable.add] at heval
    have hrest := h.right
    rw [hcall.drop_eq.1, ← hcall.found.stop] at hrest
    exact .cons (hcall.right heval.1) (hrest heval.2)
  kept := by
    intro x hx
    rcases List.mem_cons.mp hx with rfl | hx
    · exact hcall.kept.trans hcall.silent
    · exact h.kept x hx
  first := by
    intro x hx hstop hrecs
    obtain rfl := Option.some.inj hx
    have hbare := hcall.bare
    rw [hrecs, returnedOf, hstop, if_neg (by simp)] at hbare
    have hends := hcall.ends
    rw [hstop] at hends
    refine ⟨c₁, ?_, hcall.found.stop.trans hends.2.1, hends.2.2⟩
    rw [hcall.found.found, foundFrom_nil hends.2.1, List.map_eq_nil_iff.mp hbare.symm]
    rfl

theorem findCalls_spec (check : RHead → Option Bool) (nums : List ℕ)
    (h : Seen pn n ud mode td₀ v c S td) (hpn : td₀.pageNum = pn)
    (hlock : td₀.checkLock ud mode.on = false) (hnums : ∀ num ∈ nums, 1 ≤ num) :
    ∃ outs u c', perform (findCalls ud mode check nums) td = .ok (.ok outs, u) ∧
      RunFrom pn n ud mode check td₀ v c S nums outs u c' := by
  induction nums generalizing td c S with
  | nil => exact ⟨[], td, c, rfl, .nil h⟩
  | cons num nums ih =>
      have hnum := hnums num List.mem_cons_self
      obtain ⟨out, u₁, T, c₁, hrun, hcall⟩ := svcFindReplies_spec check h hpn hlock hnum
      obtain ⟨outs, u, c', hrest, hcalls⟩ := ih hcall.seen fun k hk => hnums k (List.mem_cons_of_mem _ hk)
      refine ⟨out :: outs, u, c', ?_, .cons hcall hnum hcalls⟩
      unfold findCalls
      rw [perform_bind_of_ok hrun, perform_bind_of_ok hrest]
      rfl

/-! ### Locks -/

theorem KeepsHead.held {r r' : RRec} (h : KeepsHead r r') : r'.held = r.held := by
  unfold RRec.held
  rw [h.exclusive, h.share, h.rAccess]

theorem lockedBy_held {r r' : RRec} (h : r'.held = r.held) :
    (r'.lockedBy ud mode).held = (r.lockedBy ud mode).held := by
  unfold RRec.lockedBy
  split
  · rfl
  · exact h

theorem svcLoad_held {s l : ℕ} : ((td.svcLoad s l).tRec j).held = (td.tRec j).held := by
  have hswap : ((td.loadSwap s l).tRec j).held = (td.tRec j).held := loadSwap_keepsHead.held
  unfold RTbl.svcLoad
  dsimp only
  split
  · exact hswap
  · change (if j ∈ (td.loadSwap s l).range s l then _ else _ : RRec).held = _
    split
    · exact hswap
    · exact hswap

theorem ensureFrom_held {k : ℕ} : ((td.ensureFrom pn k i).tRec j).held = (td.tRec j).held := by
  induction k generalizing td i with
  | zero => rfl
  | succ k ih =>
      refine ih.trans ?_
      unfold RTbl.ensure
      split
      · rfl
      · exact svcLoad_held

/-- What the calls have returned is locked, and nothing else. -/
theorem Seen.held (h : Seen pn n ud mode td₀ v c' S u) (hv : ∀ j, (v j).held = (td₀.tRec j).held)
    (j : ℕ) : (u.tRec j).held = (if j ∈ S then (td₀.tRec j).lockedBy ud mode else td₀.tRec j).held := by
  have hslot := (h.slots j).held
  rw [ensureFrom_held] at hslot
  rw [hslot]
  split
  · exact lockedBy_held (hv j)
  · exact hv j

/-! ### Records and reads -/

theorem stopsAt_keepsHead {r r' : RRec} (h : KeepsHead r r') :
    stopsAt ud mode check r' = stopsAt ud mode check r := by
  unfold stopsAt
  rw [h.used, h.rHead, h.blocked]

theorem takesAt_keepsHead {r r' : RRec} (h : KeepsHead r r') :
    takesAt ud mode check r' = takesAt ud mode check r := by
  unfold takesAt
  rw [h.used, h.rHead, h.blocked]

theorem from_keepsHead (ud : Usr) (mode : RLock) (check : RHead → Option Bool) {k : ℕ}
    (h : ∀ j, c ≤ j → j < c + k → KeepsHead (w j) (v j)) :
    foundFrom ud mode check v k c = foundFrom ud mode check w k c ∧
      stopFrom ud mode check v k c = stopFrom ud mode check w k c := by
  induction k generalizing c with
  | zero => exact ⟨rfl, rfl⟩
  | succ k ih =>
      have hhere := h c (Nat.le_refl c) (by omega)
      obtain ⟨hfound, hstop⟩ := ih (c := c + 1) fun j hj hj' => h j (by omega) (by omega)
      rw [foundFrom_succ, foundFrom_succ, stopFrom_succ, stopFrom_succ, stopsAt_keepsHead hhere,
        takesAt_keepsHead hhere, hfound, hstop]
      exact ⟨rfl, rfl⟩

theorem CallsRight.congr (hF : ∀ i ∈ F, (w i).rHead = (v i).rHead)
    (hstop : ∀ i, stop = some i → stopErr check (w i) = stopErr check (v i))
    (h : CallsRight check v F stop nums outs) : CallsRight check w F stop nums outs := by
  induction h with
  | nil F stop => exact .nil F stop
  | @cons F nums stop num out outs hcall _ ih =>
      refine .cons ⟨?_, hcall.more, hcall.ends.imp_right fun hbusy => ?_⟩
        (ih (fun i hi => hF i (List.mem_of_mem_drop hi)) hstop)
      · rw [hcall.records]
        refine List.map_congr_left fun i hi => ?_
        rw [hF i (List.mem_of_mem_take hi)]
      · obtain ⟨hrec, hlt, i, hi, herr⟩ := hbusy
        exact ⟨hrec, hlt, i, hi, (hstop i hi).trans herr⟩

/-- Calls that come to a locked record at once -/
theorem CallsRight.silent (h : CallsRight check w [] (some i) nums outs) (hnums : ∀ num ∈ nums, 1 ≤ num) :
    ∀ out ∈ outs, out.stop = .err .recBusy ∧ out.records = [] := by
  generalize hF : ([] : List ℕ) = F at h
  generalize hstop : some i = stop at h
  induction h with
  | nil F stop => exact fun out hout => absurd hout List.not_mem_nil
  | @cons F nums stop num out outs hcall _ ih =>
      subst hF
      subst hstop
      have hrest := ih (fun k hk => hnums k (List.mem_cons_of_mem _ hk)) List.drop_nil.symm rfl
      have hnum := hnums num List.mem_cons_self
      intro x hx
      rcases List.mem_cons.mp hx with rfl | hx
      · refine ⟨?_, ?_⟩
        · rcases hcall.ends with ⟨-, hle | hnone⟩ | hbusy
          · exact absurd hle (Nat.not_le.mpr hnum)
          · cases hnone
          · exact hbusy.1
        · have hrecs := hcall.records
          rw [List.take_nil] at hrecs
          exact List.map_eq_nil_iff.mp hrecs
      · exact hrest x hx

section Table
variable (h : RunFrom td.pageNum td.tRecNum ud mode check td (td.read ud) (td.uCursor ud) [] nums outs u c')
include h

/-- The calls are right where the reads leave what they come to. -/
theorem RunFrom.findsRight (hfinds : td.finds ud mode check w = td.finds ud mode check (td.read ud))
    (hends : td.endsAt ud mode check w = td.endsAt ud mode check (td.read ud))
    (hhead : ∀ i ∈ td.finds ud mode check w, (w i).rHead = (td.read ud i).rHead)
    (herr : ∀ i, td.endsAt ud mode check w = some i → stopErr check (w i) = stopErr check (td.read ud i))
    (heval : Evaluable check w (td.finds ud mode check w) (td.endsAt ud mode check w) nums.sum) :
    FindsRight ud mode check w td nums outs u where
  calls := by
    refine CallsRight.congr (v := td.read ud) hhead herr ?_
    rw [hfinds, hends] at heval ⊢
    refine h.right (heval.imp_right fun hall i hi => ?_)
    rw [← herr i (hends.trans hi)]
    exact hall i hi
  cursor i hi hlt := by
    rw [hends] at hi
    rw [hfinds] at hlt
    exact h.seen.cursor.trans (h.cursor i hi (.inl hlt))
  locks := by
    have hread (j : ℕ) : (td.read ud j).held = (td.tRec j).held := ensureFrom_held
    rw [hfinds]
    exact h.seen.held hread

theorem RunFrom.barred (hnums : nums ≠ []) (hpos : ∀ num ∈ nums, 1 ≤ num)
    (hright : FindsRight ud mode check w td nums outs u) (hkept : ∀ out ∈ outs, BufferKept out.uses) :
    ∃ i, Barred ud mode check w td i ∧ Barred ud mode check (td.read ud) td i := by
  have hcalls := hright.calls
  cases nums with
  | nil => exact absurd rfl hnums
  | cons num nums =>
      have hnum := hpos num List.mem_cons_self
      cases hcalls with
      | @cons _ _ _ _ out outs hcall _ =>
          obtain ⟨⟨e, he⟩, hrecs⟩ := (h.kept out List.mem_cons_self).mp (hkept out List.mem_cons_self)
          rcases hcall.ends with ⟨hok, -⟩ | ⟨hbusy, -, i, hi, herr⟩
          · cases he.symm.trans hok
          · have hnil : td.finds ud mode check w = [] := by
              have hrecords := hcall.records
              rw [hrecs] at hrecords
              rcases List.take_eq_nil_iff.mp (List.map_eq_nil_iff.mp hrecords.symm) with rfl | hnil
              · exact absurd hnum (Nat.not_succ_le_zero 0)
              · exact hnil
            obtain ⟨i', hnil', hi', herr'⟩ := h.first out rfl hbusy hrecs
            have hlt : 0 < (num :: nums).sum := by
              rw [List.sum_cons]
              omega
            have hcursor : u.uCursor ud = i := hright.cursor i hi (by rw [hnil]; exact hlt)
            have hcursor' : u.uCursor ud = i' :=
              h.seen.cursor.trans (h.cursor i' hi' (.inl (by rw [hnil']; exact hlt)))
            obtain rfl : i' = i := hcursor'.symm.trans hcursor
            exact ⟨i', ⟨hnil, hi, herr⟩, hnil', hi', herr'⟩

end Table

theorem seen_read (td : RTbl) (ud : Usr) (mode : RLock) :
    Seen td.pageNum td.tRecNum ud mode td (td.read ud) (td.uCursor ud) [] td where
  num := rfl
  cursor := rfl
  apart := .refl td
  below j hj := absurd hj List.not_mem_nil
  slots j := by
    rw [if_neg List.not_mem_nil]
    exact .refl _

/-- The loads of a search leave the records that it comes to. -/
def ReadsKeep (td : RTbl) (ud : Usr) : Prop :=
  ∀ j, td.uCursor ud ≤ j → j < td.tRecNum → KeepsHead (td.resolve j) (td.read ud j)

theorem RunFrom.right_of_keeps
    (h : RunFrom td.pageNum td.tRecNum ud mode check td (td.read ud) (td.uCursor ud) [] nums outs u c')
    (hkeep : ReadsKeep td ud) (heval : Evaluable check td.resolve (td.finds ud mode check td.resolve)
      (td.endsAt ud mode check td.resolve) nums.sum) :
    FindsRight ud mode check td.resolve td nums outs u := by
  have hslot {j : ℕ} (hj : td.uCursor ud ≤ j ∧ j < td.uCursor ud + (td.tRecNum - td.uCursor ud)) :
      (td.resolve j).rHead = (td.read ud j).rHead := (hkeep j hj.1 (by omega)).rHead.symm
  obtain ⟨hfinds, hends⟩ := from_keepsHead ud mode check (c := td.uCursor ud)
    (k := td.tRecNum - td.uCursor ud) fun j hj hj' => hkeep j hj (by omega)
  refine h.findsRight hfinds.symm hends.symm (fun i hi => hslot (foundFrom_mem hi)) (fun i hi => ?_) heval
  unfold stopErr
  rw [hslot (stopFrom_mem hi)]

theorem RunFrom.right_of_barred
    (h : RunFrom td.pageNum td.tRecNum ud mode check td (td.read ud) (td.uCursor ud) [] nums outs u c')
    (hpos : ∀ num ∈ nums, 1 ≤ num) (hw : Barred ud mode check w td i)
    (hread : Barred ud mode check (td.read ud) td i) :
    FindsRight ud mode check w td nums outs u ∧ ∀ out ∈ outs, BufferKept out.uses := by
  obtain ⟨hnil, hi, herr⟩ := hw
  obtain ⟨hnil', hi', herr'⟩ := hread
  have hright : FindsRight ud mode check w td nums outs u := by
    refine h.findsRight (hnil.trans hnil'.symm) (hi.trans hi'.symm) ?_ ?_ (.inr ?_)
    · rw [hnil]
      exact fun j hj => absurd hj List.not_mem_nil
    · rw [hi]
      rintro j ⟨⟩
      rw [herr, herr']
    · rw [hi]
      rintro j ⟨⟩
      exact herr
  refine ⟨hright, fun out hout => ?_⟩
  have hcalls := hright.calls
  rw [hnil, hi] at hcalls
  obtain ⟨hbusy, hrecs⟩ := hcalls.silent hpos out hout
  exact (h.kept out hout).mpr ⟨⟨.recBusy, hbusy⟩, hrecs⟩

/-- Requests come to an end with the replies that are asked for and without touching a
buffer that was handed over if and only if there are none or the next record that a
search comes to is locked. If the loads leave the records, the replies are those that
are asked for if and only if the condition can be evaluated on what they come to. -/
theorem findCalls_right_iff (td : RTbl) (ud : Usr) (mode : RLock) (check : RHead → Option Bool)
    (nums : List ℕ) (hlock : td.checkLock ud mode.on = false) (hnums : ∀ num ∈ nums, 1 ≤ num) :
    ∃ outs u, perform (findCalls ud mode check nums) td = .ok (.ok outs, u) ∧
      ((FindsRight ud mode check td.resolve td nums outs u ∧ ∀ out ∈ outs, BufferKept out.uses) ↔
        nums = [] ∨
          ∃ i, Barred ud mode check td.resolve td i ∧ Barred ud mode check (td.read ud) td i) ∧
      (ReadsKeep td ud → (FindsRight ud mode check td.resolve td nums outs u ↔
        Evaluable check td.resolve (td.finds ud mode check td.resolve)
          (td.endsAt ud mode check td.resolve) nums.sum)) := by
  obtain ⟨outs, u, c', hrun, h⟩ := findCalls_spec check nums (seen_read td ud mode) rfl hlock hnums
  refine ⟨outs, u, hrun, ⟨?_, ?_⟩, fun hkeep =>
    ⟨fun hright => hright.calls.evaluable, h.right_of_keeps hkeep⟩⟩
  · rintro ⟨hright, hkept⟩
    by_cases hnil : nums = []
    · exact .inl hnil
    · exact .inr (h.barred hnil hnums hright hkept)
  · rintro (rfl | ⟨i, hw, hread⟩)
    · obtain ⟨hout, rfl⟩ := Prod.mk.inj (Except.ok.inj hrun)
      obtain rfl := Except.ok.inj hout
      refine ⟨⟨.nil _ _, fun i _ hlt => absurd hlt (Nat.not_lt_zero _), fun j => ?_⟩, ?_⟩
      · rw [List.sum_nil, List.take_zero, if_neg List.not_mem_nil]
      · exact fun out hout => absurd hout List.not_mem_nil
    · exact h.right_of_barred hnums hw hread

/-- A table with one record, which is in memory. -/
def oneTable (r : RRec) : RTbl where
  tRec _ := r
  tRecNum := 1
  tRecSize := R_HEAD_SIZE + 4
  tRecUsed := 1
  tRecOriUsed := 1
  tUnusedIndex := 1
  tUsrCnt := 1
  tUpdate := false
  tLock := none
  tScm := [⟨"n", .int, 4, 0⟩]
  tHashEqual _ := none
  uAdded _ := 0
  uCursor _ := 0
  file := ⟨fun _ => {}, 1, 1⟩

/-- A used record that is locked by `access` -/
def heldRec (access : Option Usr) : RRec where
  rStat := { used := true, exclusive := access.isSome, cache := true }
  rHead := { data := [7, 0, 0, 0] }
  rAccess := access

/-- A record that is locked by another user -/
theorem findCalls_right_locked :
    ∃ outs u, perform (findCalls 1 {} (fun _ => some true) [1, 2]) (oneTable (heldRec (some 2))) =
        .ok (.ok outs, u) ∧
      FindsRight 1 {} (fun _ => some true) (oneTable (heldRec (some 2))).resolve
        (oneTable (heldRec (some 2))) [1, 2] outs u ∧ ∀ out ∈ outs, BufferKept out.uses := by
  obtain ⟨outs, u, hrun, hright, -⟩ := findCalls_right_iff (oneTable (heldRec (some 2))) 1 {}
    (fun _ => some true) [1, 2] rfl (by decide)
  refine ⟨outs, u, hrun, hright.mpr (.inr ⟨0, ?_, ?_⟩)⟩
  · exact ⟨rfl, rfl, rfl⟩
  · exact ⟨rfl, rfl, rfl⟩

/-- The reply with the record has freed the buffer when its `f_more` is read. -/
theorem findCalls_not_right :
    ¬∃ outs u, perform (findCalls 1 {} (fun _ => some true) [1]) (oneTable (heldRec none)) =
        .ok (.ok outs, u) ∧
      FindsRight 1 {} (fun _ => some true) (oneTable (heldRec none)).resolve (oneTable (heldRec none))
        [1] outs u ∧ ∀ out ∈ outs, BufferKept out.uses := by
  rintro ⟨outs, u, hrun, -, hkept⟩
  obtain ⟨hout, -⟩ := Prod.mk.inj (Except.ok.inj hrun)
  obtain rfl := Except.ok.inj hout
  exact not_bufferKept [.write] [] (hkept _ List.mem_cons_self)

end PaxosSolutions.XjPing
