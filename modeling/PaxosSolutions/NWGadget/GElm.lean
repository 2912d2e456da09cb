import Mathlib.Data.List.Nodup
import Mathlib.Logic.Function.Basic

/-!
# Reference-counted elements

A `GElmCtrl_t` keeps elements under keys and counts the users of each. An
element that loses its last user goes if it can be unset. `ge_Lnk` holds all of
them, the one that was got longest ago first, and `ge_Hash` finds them by key,
so the list is all that is kept here. What its users do is given as a function
from keys to their number.
-/
namespace PaxosSolutions.NWGadget
variable {κ α : Type} [DecidableEq κ]

structure GElm (κ α : Type) where
  eKey : κ
  eCnt : ℕ
  val : α

/-- `ge_MaxCnt` is 0 where there is no limit. -/
structure GElmCtrl (κ α : Type) where
  geLnk : List (GElm κ α) := []
  geMaxCnt : ℕ := 0

/-- `ge_fAlloc` and what `ge_fUnset` leaves of an element it does not refuse. -/
structure GElmFn (α : Type) where
  alloc : α
  unset : α → Option α

/-- `GElmGet` waits for the users of the first element, or returns `NULL` since
it cannot be unset; the `ASSERT` of `GElmPut` fails, or its element is gone. -/
inductive GElmFault where
  | wait | null | assertCnt | freed
deriving DecidableEq, Repr

namespace GElmCtrl
variable (f : GElmFn α) (k : κ)

/-- `HashGet( &ge_Hash )` -/
def find (c : GElmCtrl κ α) : Option (GElm κ α) := c.geLnk.find? fun e => e.eKey = k

def others (c : GElmCtrl κ α) : List (GElm κ α) := c.geLnk.filter fun e => e.eKey ≠ k

def modify (g : GElm κ α → GElm κ α) (c : GElmCtrl κ α) : GElmCtrl κ α :=
  { c with geLnk := c.geLnk.map fun e => if e.eKey = k then g e else e }

/-- `GElmGet`. Without `bAlloc` nothing is got when nothing is found. -/
def get (bAlloc : Bool) (c : GElmCtrl κ α) : Except GElmFault (GElmCtrl κ α) :=
  match c.find k with
  | some e => .ok { c with geLnk := c.others k ++ [{ e with eCnt := e.eCnt + 1 }] }
  | none =>
      if bAlloc = false then .ok c
      else if c.geMaxCnt = 0 ∨ c.geLnk.length < c.geMaxCnt then
        .ok { c with geLnk := c.geLnk ++ [⟨k, 1, f.alloc⟩] }
      else
        match c.geLnk with
        | [] => .error .null
        | e :: es =>
            if e.eCnt ≠ 0 then .error .wait
            else
              match f.unset e.val with
              | none => .error .null
              | some v => .ok { c with geLnk := es ++ [⟨k, 1, v⟩] }

/-- `GElmPut` with `bFree` -/
def put (c : GElmCtrl κ α) : Except GElmFault (GElmCtrl κ α) :=
  match c.find k with
  | none => .error .freed
  | some e =>
      if e.eCnt = 0 then .error .assertCnt
      else if e.eCnt = 1 ∧ (f.unset e.val).isSome then .ok { c with geLnk := c.others k }
      else .ok (c.modify k fun e => { e with eCnt := e.eCnt - 1 })

/-- A change of what the element holds. -/
def change (g : α → α) (c : GElmCtrl κ α) : GElmCtrl κ α :=
  c.modify k fun e => { e with val := g e.val }

/-- The users of `k`, none where there is no element. -/
def cnt (c : GElmCtrl κ α) : ℕ := (c.find k).elim 0 (·.eCnt)

def val (c : GElmCtrl κ α) : Option α := (c.find k).map (·.val)

variable {f k} {j : κ} {c c' : GElmCtrl κ α} {e : GElm κ α}

def Nodup (c : GElmCtrl κ α) : Prop := (c.geLnk.map (·.eKey)).Nodup

/-! ### Finding an element -/

theorem find_some (h : c.find k = some e) : e ∈ c.geLnk ∧ e.eKey = k := by
  unfold find at h
  exact ⟨List.mem_of_find?_eq_some h, by simpa using List.find?_some h⟩

theorem find_eq_some (hn : c.Nodup) (he : e ∈ c.geLnk) (hk : e.eKey = k) :
    c.find k = some e := by
  cases h : c.find k with
  | none =>
      unfold find at h
      simp only [List.find?_eq_none, decide_eq_true_eq] at h
      exact absurd hk (h e he)
  | some d =>
      obtain ⟨hd, hdk⟩ := find_some h
      rw [List.inj_on_of_nodup_map hn hd he (hdk.trans hk.symm)]

theorem find_others (hj : j ≠ k) : (c.others k).find? (fun e => e.eKey = j) = c.find j := by
  unfold others find
  rw [List.find?_filter]
  congr 1
  funext e
  by_cases he : e.eKey = j
  · simp [he, hj]
  · simp [he]

theorem others_find : (c.others k).find? (fun e => e.eKey = k) = none := by
  unfold others
  simp

theorem find_modify {g : GElm κ α → GElm κ α} (hg : ∀ e, (g e).eKey = e.eKey) :
    (c.modify k g).find j = (c.find j).map fun e => if e.eKey = k then g e else e := by
  unfold modify find
  rw [List.find?_map]
  congr 2
  funext e
  simp only [Function.comp_apply]
  split
  · rw [hg]
  · rfl

theorem find_change {g : α → α} : (c.change k g).find j =
    (c.find j).map fun e => if e.eKey = k then { e with val := g e.val } else e :=
  find_modify fun _ => rfl

theorem cnt_change {g : α → α} : (c.change k g).cnt j = c.cnt j := by
  unfold cnt
  rw [find_change]
  cases c.find j with
  | none => rfl
  | some e =>
      simp only [Option.map_some, Option.elim_some]
      split <;> rfl

theorem val_change {g : α → α} :
    (c.change k g).val j = if j = k then (c.val j).map g else c.val j := by
  unfold val
  rw [find_change]
  cases h : c.find j with
  | none => simp
  | some e =>
      simp only [Option.map_some, (find_some h).2]
      split <;> rfl

theorem nodup_modify {g : GElm κ α → GElm κ α} (hg : ∀ e, (g e).eKey = e.eKey) (hn : c.Nodup) :
    (c.modify k g).Nodup := by
  have hkeys : (c.modify k g).geLnk.map (·.eKey) = c.geLnk.map (·.eKey) := by
    unfold modify
    rw [List.map_map]
    apply List.map_congr_left
    intro e _
    simp only [Function.comp_apply]
    split
    · exact hg e
    · rfl
  unfold Nodup
  rw [hkeys]
  exact hn

/-! ### What a get and a put do -/

theorem nodup_others (hn : c.Nodup) : ((c.others k).map (·.eKey)).Nodup :=
  hn.sublist (List.filter_sublist.map _)

theorem notMem_of_find (h : c.find k = none) : ∀ e ∈ c.geLnk, e.eKey ≠ k := by
  simpa [find] using h

omit [DecidableEq κ] in
theorem nodup_append {l : List (GElm κ α)} (hl : (l.map (·.eKey)).Nodup)
    (hk : ∀ d ∈ l, d.eKey ≠ e.eKey) : ((l ++ [e]).map (·.eKey)).Nodup := by
  rw [List.map_append, List.nodup_append]
  refine ⟨hl, by simp, ?_⟩
  intro i hi j hj
  obtain ⟨d, hd, rfl⟩ := List.mem_map.mp hi
  rw [List.mem_singleton.mp hj]
  exact hk d hd

theorem find_append {l : List (GElm κ α)} (c : GElmCtrl κ α)
    (hk : l.find? (fun d => d.eKey = e.eKey) = none) :
    { c with geLnk := l ++ [e] }.find e.eKey = some e ∧
      ∀ j ≠ e.eKey, { c with geLnk := l ++ [e] }.find j = l.find? fun d => d.eKey = j := by
  unfold find
  constructor
  · rw [List.find?_append, hk]
    simp
  · intro j hj
    rw [List.find?_append]
    simp [Ne.symm hj]

/-- A new element, as long as there is room. -/
theorem get_new (hf : c.find k = none) (hroom : c.geLnk.length < c.geMaxCnt) :
    c.get f k true = .ok { c with geLnk := c.geLnk ++ [⟨k, 1, f.alloc⟩] } := by
  unfold get
  rw [hf]
  simp only [Bool.true_eq_false, if_false]
  rw [if_pos (.inr hroom)]

/-- A change of the element that was added last. -/
theorem change_new {l : List (GElm κ α)} {n : ℕ} {v : α} {g : α → α} (c : GElmCtrl κ α)
    (hl : ∀ e ∈ l, e.eKey ≠ k) :
    GElmCtrl.change k g { c with geLnk := l ++ [⟨k, n, v⟩] } =
      { c with geLnk := l ++ [⟨k, n, g v⟩] } := by
  have hsame : l.map (fun e => if e.eKey = k then { e with val := g e.val } else e) = l := by
    conv_rhs => rw [← List.map_id l]
    apply List.map_congr_left
    intro e he
    rw [if_neg (hl e he)]
    rfl
  unfold change modify
  rw [List.map_append, hsame]
  simp

/-- The element is there with one user more, or is new, in the place of one
without users if need be. Otherwise there is none and nothing is got. -/
theorem get_ok {bAlloc : Bool} (hn : c.Nodup) (h : c.get f k bAlloc = .ok c') :
    c'.Nodup ∧
      (bAlloc = false ∧ c.find k = none ∧ c' = c ∨
        (∃ e, c.find k = some e ∧ c'.find k = some { e with eCnt := e.eCnt + 1 } ∧
          ∀ j ≠ k, c'.find j = c.find j) ∨
        c.find k = none ∧ c'.find k = some ⟨k, 1, f.alloc⟩ ∧ (∀ j ≠ k, c'.find j = c.find j) ∨
        ∃ e v, c.find k = none ∧ (bAlloc = true ∧ c.geMaxCnt ≤ c.geLnk.length) ∧ e ∈ c.geLnk ∧
          e.eCnt = 0 ∧ f.unset e.val = some v ∧
          c'.find k = some ⟨k, 1, v⟩ ∧ c'.find e.eKey = none ∧
          ∀ j ≠ k, j ≠ e.eKey → c'.find j = c.find j) := by
  unfold get at h
  cases hf : c.find k with
  | some e =>
      rw [hf] at h
      cases h
      obtain ⟨-, rfl⟩ := find_some hf
      constructor
      · apply nodup_append (nodup_others hn)
        intro d hd
        exact of_decide_eq_true (List.mem_filter.mp hd).2
      · right; left
        obtain ⟨hself, hrest⟩ := find_append (e := { e with eCnt := e.eCnt + 1 })
          (l := c.others e.eKey) c others_find
        refine ⟨e, rfl, hself, ?_⟩
        intro j hj
        rw [hrest j hj, find_others hj]
  | none =>
      rw [hf] at h
      simp only at h
      have hne := notMem_of_find hf
      split_ifs at h with hb hmax
      · cases h
        exact ⟨hn, .inl ⟨hb, rfl, rfl⟩⟩
      · cases h
        refine ⟨nodup_append hn hne, .inr (.inr (.inl ⟨rfl, ?_⟩))⟩
        exact find_append (e := ⟨k, 1, f.alloc⟩) c hf
      · split at h
        · cases h
        · next e es hes =>
            split_ifs at h with hcnt
            split at h
            · cases h
            · next v hv =>
                cases h
                have hnd : ((e :: es).map (·.eKey)).Nodup := hes ▸ hn
                obtain ⟨hes', hnd⟩ := List.nodup_cons.mp hnd
                have hne' : ∀ d ∈ es, d.eKey ≠ k := by
                  intro d hd
                  exact hne d (hes ▸ List.mem_cons_of_mem _ hd)
                have hek : e.eKey ≠ k := hne e (hes ▸ List.mem_cons_self)
                obtain ⟨hself, hrest⟩ := find_append (e := ⟨k, 1, v⟩) (l := es) c
                  (by simpa using hne')
                refine ⟨nodup_append hnd hne', .inr (.inr (.inr ⟨e, v, rfl, ⟨?_, ?_⟩, ?_, ?_, hv, hself,
                  ?_⟩))⟩
                · simpa using hb
                · exact Nat.not_lt.mp fun h => hmax (.inr h)
                · exact hes ▸ List.mem_cons_self
                · omega
                · constructor
                  · rw [hrest _ hek]
                    simp only [List.find?_eq_none, decide_eq_true_eq]
                    intro d hd h
                    exact hes' (List.mem_map.mpr ⟨d, hd, h⟩)
                  · intro j hj hje
                    rw [hrest j hj]
                    unfold find
                    rw [hes, List.find?_cons_of_neg (by simpa using Ne.symm hje)]

theorem others_length (hf : c.find k = some e) : (c.others k).length < c.geLnk.length := by
  obtain ⟨he, hk⟩ := find_some hf
  unfold others
  rw [List.length_filter_lt_length_iff_exists]
  exact ⟨e, he, by simpa using hk⟩

/-- A get never makes more elements than there may be. -/
theorem get_length {bAlloc : Bool} (hmax : c.geMaxCnt ≠ 0)
    (hlen : c.geLnk.length ≤ c.geMaxCnt) (h : c.get f k bAlloc = .ok c') :
    c'.geLnk.length ≤ c'.geMaxCnt ∧ c'.geMaxCnt = c.geMaxCnt := by
  unfold get at h
  cases hf : c.find k with
  | some e =>
      rw [hf] at h
      cases h
      refine ⟨?_, rfl⟩
      have hlt := others_length hf
      rw [List.length_append, List.length_singleton]
      exact Nat.le_trans (Nat.succ_le_of_lt hlt) hlen
  | none =>
      rw [hf] at h
      simp only at h
      split_ifs at h with hb hroom
      · cases h
        exact ⟨hlen, rfl⟩
      · cases h
        refine ⟨?_, rfl⟩
        rw [List.length_append, List.length_singleton]
        exact Nat.succ_le_of_lt (hroom.resolve_left hmax)
      · split at h
        · cases h
        · next e es hes =>
            split_ifs at h
            split at h
            · cases h
            · cases h
              refine ⟨?_, rfl⟩
              rw [hes] at hlen
              simpa using hlen

theorem put_length (h : c.put f k = .ok c') :
    c'.geLnk.length ≤ c.geLnk.length ∧ c'.geMaxCnt = c.geMaxCnt := by
  unfold put at h
  cases hf : c.find k with
  | none =>
      rw [hf] at h
      cases h
  | some e =>
      rw [hf] at h
      simp only at h
      split_ifs at h
      · cases h
        exact ⟨Nat.le_of_lt (others_length hf), rfl⟩
      · cases h
        unfold modify
        simp

/-- The element has one user less. It goes if it was the last and can be unset. -/
theorem put_ok (hn : c.Nodup) (h : c.put f k = .ok c') :
    c'.Nodup ∧ (∀ j ≠ k, c'.find j = c.find j) ∧
      ∃ e, c.find k = some e ∧ e.eCnt ≠ 0 ∧
        if e.eCnt = 1 ∧ (f.unset e.val).isSome then c'.find k = none
        else c'.find k = some { e with eCnt := e.eCnt - 1 } := by
  unfold put at h
  cases hf : c.find k with
  | none =>
      rw [hf] at h
      cases h
  | some e =>
      rw [hf] at h
      simp only at h
      split_ifs at h with hcnt hlast
      · cases h
        refine ⟨nodup_others hn, fun j hj => find_others hj, e, rfl, hcnt, ?_⟩
        rw [if_pos hlast]
        exact others_find
      · cases h
        refine ⟨nodup_modify (fun _ => rfl) hn, ?_, e, rfl, hcnt, ?_⟩
        · intro j hj
          rw [find_modify (g := fun e => { e with eCnt := e.eCnt - 1 }) (fun _ => rfl)]
          cases hj' : c.find j with
          | none => rfl
          | some d => simp [(find_some hj').2, hj]
        · rw [if_neg hlast, find_modify (g := fun e => { e with eCnt := e.eCnt - 1 }) (fun _ => rfl),
            hf]
          simp [(find_some hf).2]

/-! ### The users of the elements -/

/-- The count of each element is the number of its users. -/
structure Held (h : κ → ℕ) (c : GElmCtrl κ α) : Prop where
  nodup : c.Nodup
  cnt : ∀ j, c.cnt j = h j

variable {h : κ → ℕ}

theorem Held.find (hc : c.Held h) (hj : h j ≠ 0) : ∃ e, c.find j = some e := by
  cases hf : c.find j with
  | some e => exact ⟨e, rfl⟩
  | none =>
      have hcnt := hc.cnt j
      unfold GElmCtrl.cnt at hcnt
      rw [hf] at hcnt
      exact absurd hcnt.symm hj

theorem cnt_of_find (hf : c.find j = some e) : c.cnt j = e.eCnt := by
  unfold cnt
  rw [hf]
  rfl

theorem cnt_of_find_none (hf : c.find j = none) : c.cnt j = 0 := by
  unfold cnt
  rw [hf]
  rfl

theorem cnt_congr (hf : c'.find j = c.find j) : c'.cnt j = c.cnt j := by
  unfold cnt
  rw [hf]

/-- A get adds a user where it finds or makes an element. -/
theorem get_held {bAlloc : Bool} (hc : c.Held h) (hget : c.get f k bAlloc = .ok c') :
    c'.Held (if (c'.find k).isSome then Function.update h k (h k + 1) else h) := by
  obtain ⟨hn, hcase⟩ := get_ok hc.nodup hget
  refine ⟨hn, ?_⟩
  intro j
  have hj := hc.cnt j
  rcases hcase with ⟨-, hf, rfl⟩ | ⟨e, hf, hk, hrest⟩ | ⟨hf, hk, hrest⟩ |
    ⟨e, v, hf, -, he, hcnt, -, hk, hgone, hrest⟩
  · rw [hf]
    exact hj
  · rw [hk, Option.isSome_some, if_pos rfl, Function.update_apply]
    split_ifs with hjk
    · subst hjk
      rw [cnt_of_find hk, ← hj, cnt_of_find hf]
    · rw [cnt_congr (hrest j hjk), hj]
  · rw [hk, Option.isSome_some, if_pos rfl, Function.update_apply]
    split_ifs with hjk
    · subst hjk
      rw [cnt_of_find hk, ← hj, cnt_of_find_none hf]
    · rw [cnt_congr (hrest j hjk), hj]
  · rw [hk, Option.isSome_some, if_pos rfl, Function.update_apply]
    split_ifs with hjk
    · subst hjk
      rw [cnt_of_find hk, ← hj, cnt_of_find_none hf]
    · by_cases hje : j = e.eKey
      · rw [hje, cnt_of_find_none hgone, ← hc.cnt, cnt_of_find (find_eq_some hc.nodup he rfl), hcnt]
      · rw [cnt_congr (hrest j hjk hje), hj]

/-- A put takes a user away. -/
theorem put_held (hc : c.Held h) (hput : c.put f k = .ok c') :
    c'.Held (Function.update h k (h k - 1)) ∧ h k ≠ 0 := by
  obtain ⟨hn, hrest, e, hf, hcnt, hk⟩ := put_ok hc.nodup hput
  have hhk : e.eCnt = h k := (cnt_of_find hf).symm.trans (hc.cnt k)
  refine ⟨⟨hn, ?_⟩, hhk ▸ hcnt⟩
  intro j
  rw [Function.update_apply]
  split_ifs with hjk
  · subst hjk
    split_ifs at hk with hlast
    · rw [cnt_of_find_none hk, ← hhk, hlast.1]
    · rw [cnt_of_find hk, hhk]
  · rw [cnt_congr (hrest j hjk), hc.cnt j]

theorem Held.congr {g : κ → ℕ} (hc : c.Held h) (hg : ∀ j, g j = h j) : c.Held g :=
  ⟨hc.nodup, fun j => (hc.cnt j).trans (hg j).symm⟩

theorem Held.change {g : α → α} (hc : c.Held h) : (c.change k g).Held h :=
  ⟨nodup_modify (fun _ => rfl) hc.nodup, fun _ => cnt_change.trans (hc.cnt _)⟩

/-- What a put leaves was there. -/
theorem put_val {v : α} (hn : c.Nodup) (hput : c.put f k = .ok c') (hv : c'.val j = some v) :
    c.val j = some v := by
  obtain ⟨-, hrest, e, hf, -, hk⟩ := put_ok hn hput
  unfold val at hv ⊢
  by_cases hjk : j = k
  · subst hjk
    split_ifs at hk
    · rw [hk] at hv
      cases hv
    · rw [hk] at hv
      rw [hf]
      exact hv
  · rw [← hrest j hjk]
    exact hv

/-- What a get finds was there, or is new, or is made of an unused element. -/
theorem get_val {bAlloc : Bool} {v : α} (hn : c.Nodup) (hget : c.get f k bAlloc = .ok c')
    (hv : c'.val j = some v) :
    c.val j = some v ∨ j = k ∧ (v = f.alloc ∨ c.find k = none ∧
      (bAlloc = true ∧ c.geMaxCnt ≤ c.geLnk.length) ∧ ∃ i w, c.cnt i = 0 ∧ c.val i = some w ∧
        f.unset w = some v) := by
  obtain ⟨-, hcase⟩ := get_ok hn hget
  unfold val at hv
  rcases hcase with ⟨-, hf, rfl⟩ | ⟨e, hf, hk, hrest⟩ | ⟨hf, hk, hrest⟩ |
    ⟨e, u, hf, hfull, he, hcnt, hu, hk, hgone, hrest⟩
  · exact .inl hv
  · left
    unfold val
    by_cases hjk : j = k
    · subst hjk
      rw [hk] at hv
      rw [hf]
      exact hv
    · rw [← hrest j hjk]
      exact hv
  · by_cases hjk : j = k
    · subst hjk
      rw [hk] at hv
      cases hv
      exact .inr ⟨rfl, .inl rfl⟩
    · left
      unfold val
      rw [← hrest j hjk]
      exact hv
  · by_cases hjk : j = k
    · subst hjk
      rw [hk] at hv
      cases hv
      have hfe := find_eq_some hn he rfl
      refine .inr ⟨rfl, .inr ⟨hf, hfull, e.eKey, e.val, (cnt_of_find hfe).trans hcnt, ?_, hu⟩⟩
      unfold val
      rw [hfe]
      rfl
    · by_cases hje : j = e.eKey
      · rw [hje, hgone] at hv
        cases hv
      · left
        unfold val
        rw [← hrest j hjk hje]
        exact hv

end GElmCtrl

end PaxosSolutions.NWGadget
