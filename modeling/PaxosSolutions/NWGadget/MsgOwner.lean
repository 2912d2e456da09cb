import Mathlib.Data.List.Perm.Basic
import Mathlib.Logic.Function.Basic
import PaxosSolutions.Lib.File
import PaxosSolutions.Lib.Run

/-!
# Messages that share their buffers

A clone has vectors of its own and no buffer: `m_pOrg` is the message it was
made from first, and counts it. A vector with `VEC_MINE` has its buffer freed
by the message it is in, when that is an original and no clone of it is left.
`MsgAddDel` moves the flag with the vector.
-/
namespace PaxosSolutions.NWGadget
open Lib

/-- `MsgVec_t`, with the buffer at `v_pVoid` as its number. -/
structure BufVec where
  mine : Bool
  disabled : Bool
  vPVoid : ℕ
deriving DecidableEq, Repr

/-- The memory of a `Msg_t` and its `m_aVec`: `m_N` is the length of the list. -/
structure MsgCell where
  mCnt : ℤ := 1
  mPOrg : Option ℕ := none
  mAVec : List BufVec := []
deriving DecidableEq, Repr

/-- What stops a call: a caller that does not have the message or the buffer it names, no
memory from `m_fMalloc`, a read of freed memory, or a call that does not end. -/
inductive MsgTrap
  | caller
  | null
  | freed
  | endless
deriving DecidableEq, Repr

/-- The messages in memory by their addresses. `live` has those that were made and not
destroyed, `freed` the buffers given to `m_fFree` and `log` those added with `VEC_MINE`. -/
structure MsgShare where
  cells : ℕ → Option MsgCell
  live : List ℕ
  freed : List ℕ := []
  log : List ℕ := []

inductive MsgOp
  | clone (m : ℕ) (p : Option ℕ)
  | add (m : ℕ) (v : BufVec)
  | insert (m : ℕ) (v : BufVec)
  | addDel (m a : ℕ)
  | destroy (m : ℕ)

/-- The buffers that the vectors own. -/
def mineOf (l : List BufVec) : List ℕ := (l.filter (·.mine)).map (·.vPVoid)

namespace MsgShare

/-- `MsgCreate`, the only message of its own. -/
def start (o : ℕ) : MsgShare where
  cells := Function.update (fun _ => none) o (some {})
  live := [o]

def cell (s : MsgShare) (m : ℕ) : Except MsgTrap MsgCell := (s.cells m).elim (.error .freed) .ok

def put (s : MsgShare) (m : ℕ) (c : MsgCell) : MsgShare :=
  { s with cells := Function.update s.cells m (some c) }

def drop (s : MsgShare) (m : ℕ) : MsgShare := { s with cells := Function.update s.cells m none }

/-- `MsgDestroy`. The depth is that of the calls: a clone destroys its original, and that
has no `m_pOrg`. -/
def msgDestroy : ℕ → MsgShare → ℕ → Except MsgTrap MsgShare
  | 0, _, _ => .error .endless
  | n + 1, s, m => (s.cell m).bind fun c =>
      let s' := s.put m { c with mCnt := int32 (c.mCnt - 1) }
      if 0 < int32 (c.mCnt - 1) then .ok s'
      else (c.mPOrg.elim (.ok { s' with freed := s'.freed ++ mineOf c.mAVec })
        fun o => msgDestroy n s' o).map (·.drop m)

/-- `MsgClone`: the clone of a clone is one of the same original. -/
def msgClone (s : MsgShare) (m : ℕ) (p : Option ℕ) : Except MsgTrap MsgShare :=
  (s.cell m).bind fun c => p.elim (.error .null) fun q =>
    let s' := s.put q { c with
      mAVec := c.mAVec.map fun v => { v with mine := false }
      mPOrg := some (c.mPOrg.getD m)
      mCnt := 1 }
    (s'.cell (c.mPOrg.getD m)).map fun r =>
      s'.put (c.mPOrg.getD m) { r with mCnt := int32 (r.mCnt + 1) }

/-- `MsgAdd` -/
def msgAdd (s : MsgShare) (m : ℕ) (v : BufVec) : Except MsgTrap MsgShare :=
  (s.cell m).map fun c => s.put m { c with mAVec := c.mAVec ++ [v] }

/-- `MsgInsert` -/
def msgInsert (s : MsgShare) (m : ℕ) (v : BufVec) : Except MsgTrap MsgShare :=
  (s.cell m).map fun c => s.put m { c with mAVec := v :: c.mAVec }

/-- `MsgAddDel`. A message that is added to itself grows as fast as it is read. -/
def msgAddDel (s : MsgShare) (m a : ℕ) : Except MsgTrap MsgShare :=
  (s.cell m).bind fun c => (s.cell a).bind fun d =>
    if m = a then
      if d.mAVec.all (·.disabled) then msgDestroy 2 { s with live := s.live.erase a } a
      else .error .endless
    else
      let s' := s.put m { c with mAVec := c.mAVec ++ d.mAVec.filter fun v => !v.disabled }
      let s' := s'.put a { d with
        mAVec := d.mAVec.map fun v => if v.disabled then v else { v with mine := false } }
      msgDestroy 2 { s' with live := s'.live.erase a } a

/-- A call. The caller has the messages it names, `m_fMalloc` gives free memory, and a
buffer gets `VEC_MINE` once. -/
def step (s : MsgShare) : MsgOp → Except MsgTrap MsgShare
  | .clone m p =>
      if m ∈ s.live ∧ p.all (fun q => (s.cells q).isNone) then
        (s.msgClone m p).map fun t => { t with live := p.toList ++ t.live }
      else .error .caller
  | .add m v =>
      if m ∈ s.live ∧ (v.mine → v.vPVoid ∉ s.log) then
        (s.msgAdd m v).map fun t => { t with log := t.log ++ mineOf [v] }
      else .error .caller
  | .insert m v =>
      if m ∈ s.live ∧ (v.mine → v.vPVoid ∉ s.log) then
        (s.msgInsert m v).map fun t => { t with log := t.log ++ mineOf [v] }
      else .error .caller
  | .addDel m a => if m ∈ s.live ∧ a ∈ s.live then s.msgAddDel m a else .error .caller
  | .destroy m =>
      if m ∈ s.live then msgDestroy 2 { s with live := s.live.erase m } m else .error .caller

/-- The vectors at an address. -/
def vecs (s : MsgShare) (m : ℕ) : List BufVec := ((s.cells m).map (·.mAVec)).getD []

def org (s : MsgShare) (m : ℕ) : Option ℕ := (s.cells m).bind (·.mPOrg)

/-- The message has a vector of the buffer, or its original has. -/
def Reaches (s : MsgShare) (m b : ℕ) : Prop :=
  b ∈ (s.vecs m).map (·.vPVoid) ∨ ∃ o, s.org m = some o ∧ b ∈ (s.vecs o).map (·.vPVoid)

/-- No enabled vector of a live message points to a freed buffer. A buffer with `VEC_MINE`
is freed once, and not before the last live message that reaches it is gone. -/
structure Right (s : MsgShare) : Prop where
  cell : ∀ m ∈ s.live, (s.cells m).isSome
  vec : ∀ m ∈ s.live, ∀ v ∈ s.vecs m, v.disabled = false → v.vPVoid ∉ s.freed
  held : ∀ b ∈ s.log, (∃ m ∈ s.live, s.Reaches m b) → s.freed.count b = 0
  gone : ∀ b ∈ s.log, (¬ ∃ m ∈ s.live, s.Reaches m b) → s.freed.count b = 1

/-- No buffer with `VEC_MINE` goes to a clone, by `MsgAdd` or with an enabled vector of
another message. No message with an enabled vector is added to itself, and the count of
an original stays in its `int`. -/
def Owned (s : MsgShare) : MsgOp → Prop
  | .clone _ _ => s.live.length < 2 ^ 31 - 1
  | .add m v => v.mine = true → s.org m = none
  | .insert m v => v.mine = true → s.org m = none
  | .addDel m a => (m = a → ∀ v ∈ s.vecs a, v.disabled = true) ∧
      (s.org m ≠ none → ∀ v ∈ s.vecs a, v.mine = true → v.disabled = true)
  | .destroy _ => True

/-- The original at `o` counts `n` and owns what was added. Any other message in memory is
a live clone of it. -/
structure Held (o n : ℕ) (r : MsgCell) (s : MsgShare) : Prop where
  org : s.cells o = some r
  root : r.mPOrg = none
  cnt : r.mCnt = n
  few : n < 2 ^ 31
  mine : (mineOf r.mAVec).Perm s.log
  clone : ∀ m ∈ s.live, m ≠ o →
    ∃ c, s.cells m = some c ∧ c.mCnt = 1 ∧ c.mPOrg = some o ∧ mineOf c.mAVec = []
  other : ∀ m, m ≠ o → m ∉ s.live → s.cells m = none
  nodup : s.live.Nodup
  freed : s.freed = []
  log : s.log.Nodup

/-- The last message is gone, and every buffer with it. -/
structure Done (s : MsgShare) : Prop where
  live : s.live = []
  cells : ∀ m, s.cells m = none
  freed : s.freed.Perm s.log
  log : s.log.Nodup

def Kept (o : ℕ) (s : MsgShare) : Prop :=
  (s.live ≠ [] ∧ ∃ r, Held o s.live.length r s) ∨ Done s

variable {o m n x : ℕ} {r c : MsgCell} {s t : MsgShare}

@[simp] theorem put_self : (s.put m c).cells m = some c := Function.update_self ..

theorem put_ne (h : x ≠ m) : (s.put m c).cells x = s.cells x := Function.update_of_ne h ..

@[simp] theorem drop_self : (s.drop m).cells m = none := Function.update_self ..

theorem drop_ne (h : x ≠ m) : (s.drop m).cells x = s.cells x := Function.update_of_ne h ..

theorem cell_of_some (h : s.cells m = some c) : s.cell m = .ok c := by
  unfold cell
  rw [h]
  rfl

theorem mineOf_append (l l' : List BufVec) : mineOf (l ++ l') = mineOf l ++ mineOf l' := by
  simp only [mineOf, List.filter_append, List.map_append]

theorem mineOf_cons (v : BufVec) (l : List BufVec) : mineOf (v :: l) = mineOf [v] ++ mineOf l :=
  mineOf_append [v] l

theorem mineOf_eq_nil {l : List BufVec} : mineOf l = [] ↔ ∀ v ∈ l, v.mine = false := by
  simp only [mineOf, List.map_eq_nil_iff, List.filter_eq_nil_iff, Bool.not_eq_true]

theorem mineOf_single {v : BufVec} (h : v.mine = true) : mineOf [v] = [v.vPVoid] := by
  simp only [mineOf, List.filter_cons, h, if_true, List.filter_nil, List.map_cons, List.map_nil]

/-- A clone owns nothing. -/
theorem mineOf_clone (l : List BufVec) :
    mineOf (l.map fun v => { v with mine := false }) = [] := by
  rw [mineOf_eq_nil]
  intro v hv
  obtain ⟨w, -, rfl⟩ := List.mem_map.mp hv
  rfl

theorem mem_mineOf {l : List BufVec} {b : ℕ} (h : b ∈ mineOf l) : b ∈ l.map (·.vPVoid) := by
  obtain ⟨v, hv, rfl⟩ := List.mem_map.mp h
  exact List.mem_map_of_mem (List.mem_filter.mp hv).1

theorem start_kept (o : ℕ) : Kept o (start o) := by
  refine .inl ⟨List.cons_ne_nil o [], {}, ?_⟩
  constructor
  · exact Function.update_self o (some ({} : MsgCell)) (fun _ => none)
  · rfl
  · rfl
  · change 1 < 2 ^ 31
    decide
  · exact List.Perm.nil
  · intro m hm hmo
    exact absurd (List.mem_singleton.mp hm) hmo
  · intro m hmo _
    exact Function.update_of_ne hmo (some ({} : MsgCell)) (fun _ => none)
  · exact List.nodup_singleton o
  · rfl
  · exact List.nodup_nil

/-- A live message is in memory. -/
theorem Held.get (hs : Held o n r s) (hm : m ∈ s.live) :
    ∃ c, s.cells m = some c ∧ c.mPOrg.getD m = o ∧ (m ≠ o → mineOf c.mAVec = []) := by
  by_cases hmo : m = o
  · subst hmo
    refine ⟨r, hs.org, ?_, fun h => absurd rfl h⟩
    rw [hs.root]
    rfl
  · obtain ⟨c, hc, -, horg, hmine⟩ := hs.clone m hm hmo
    refine ⟨c, hc, ?_, fun _ => hmine⟩
    rw [horg]
    rfl

theorem Held.org_eq (hs : Held o n r s) (hm : m ∈ s.live) : s.org m = none ↔ m = o := by
  unfold MsgShare.org
  constructor
  · intro h
    by_contra hmo
    obtain ⟨c, hc, -, horg, -⟩ := hs.clone m hm hmo
    rw [hc, Option.bind_some, horg] at h
    cases h
  · rintro rfl
    rw [hs.org, Option.bind_some, hs.root]

theorem Kept.right (hs : Kept o s) : Right s := by
  rcases hs with ⟨hne, r, hs⟩ | hs
  · constructor
    · intro m hm
      obtain ⟨c, hc, -⟩ := hs.get hm
      rw [hc]
      rfl
    · intro m _ v _ _
      rw [hs.freed]
      exact List.not_mem_nil
    · intro b _ _
      rw [hs.freed]
      rfl
    · intro b hb hno
      exfalso
      -- the original has the buffer, and any live message reaches the original
      have hvec : b ∈ (s.vecs o).map (·.vPVoid) := by
        have h := mem_mineOf (hs.mine.mem_iff.mpr hb)
        unfold vecs
        rw [hs.org]
        exact h
      obtain ⟨m, hm⟩ := List.exists_mem_of_ne_nil _ hne
      apply hno
      refine ⟨m, hm, ?_⟩
      by_cases hmo : m = o
      · exact .inl (hmo ▸ hvec)
      · obtain ⟨c, hc, -, horg, -⟩ := hs.clone m hm hmo
        refine .inr ⟨o, ?_, hvec⟩
        unfold MsgShare.org
        rw [hc]
        exact horg
  · constructor
    · intro m hm
      rw [hs.live] at hm
      cases hm
    · intro m hm
      rw [hs.live] at hm
      cases hm
    · rintro b - ⟨m, hm, -⟩
      rw [hs.live] at hm
      cases hm
    · intro b hb _
      exact List.count_eq_one_of_mem (hs.freed.nodup_iff.mpr hs.log) (hs.freed.mem_iff.mpr hb)

/-- New vectors at a live message: the buffers that come with them go to the original. -/
theorem Held.write (hs : Held o n r s) (hm : m ∈ s.live) (hc : s.cells m = some c)
    (new : List ℕ) (hlog : (s.log ++ new).Nodup) (hnew : m ≠ o → new = []) {l : List BufVec}
    (hl : (mineOf l).Perm (mineOf c.mAVec ++ new)) :
    ∃ r, Held o n r { s.put m { c with mAVec := l } with log := s.log ++ new } := by
  by_cases hmo : m = o
  · subst hmo
    rw [hs.org] at hc
    cases hc
    refine ⟨{ r with mAVec := l }, ?_⟩
    constructor
    · exact put_self
    · exact hs.root
    · exact hs.cnt
    · exact hs.few
    · exact hl.trans (hs.mine.append_right _)
    · intro x hx hxm
      rw [put_ne hxm]
      exact hs.clone x hx hxm
    · intro x hxm hx
      rw [put_ne hxm]
      exact hs.other x hxm hx
    · exact hs.nodup
    · exact hs.freed
    · exact hlog
  · obtain rfl := hnew hmo
    rw [List.append_nil] at hl hlog ⊢
    refine ⟨r, ?_⟩
    constructor
    · rw [put_ne (Ne.symm hmo)]
      exact hs.org
    · exact hs.root
    · exact hs.cnt
    · exact hs.few
    · exact hs.mine
    · intro x hx hxo
      by_cases hxm : x = m
      · subst hxm
        obtain ⟨d, hd, hcnt, horg, hmine⟩ := hs.clone x hx hxo
        rw [hc] at hd
        cases hd
        exact ⟨{ c with mAVec := l }, put_self, hcnt, horg, (hmine ▸ hl).eq_nil⟩
      · rw [put_ne hxm]
        exact hs.clone x hx hxo
    · intro x hxo hx
      rw [put_ne (ne_of_mem_of_not_mem hm hx).symm]
      exact hs.other x hxo hx
    · exact hs.nodup
    · exact hs.freed
    · exact hlog

/-- New vectors with the same buffers to free. -/
theorem Held.recell (hs : Held o n r s) (hm : m ∈ s.live) (hc : s.cells m = some c)
    {l : List BufVec} (hl : mineOf l = mineOf c.mAVec) :
    ∃ r, Held o n r (s.put m { c with mAVec := l }) := by
  have h := hs.write hm hc [] (l := l)
  rw [List.append_nil, List.append_nil] at h
  exact h hs.log (fun _ => rfl) (hl ▸ List.Perm.refl _)

/-- A vector is added to a live message. -/
theorem Held.add (hs : Held o n r s) (hm : m ∈ s.live) (hc : s.cells m = some c) {v : BufVec}
    (hfresh : v.mine = true → v.vPVoid ∉ s.log) (horg : v.mine = true → s.org m = none)
    {l : List BufVec} (hl : (mineOf l).Perm (mineOf c.mAVec ++ mineOf [v])) :
    ∃ r, Held o n r { s.put m { c with mAVec := l } with log := s.log ++ mineOf [v] } := by
  by_cases hv : v.mine = true
  · refine hs.write hm hc _ ?_ ?_ hl
    · rw [mineOf_single hv, List.nodup_append]
      refine ⟨hs.log, List.nodup_singleton _, ?_⟩
      intro a ha b hb hab
      rw [hab, List.mem_singleton.mp hb] at ha
      exact hfresh hv ha
    · intro hmo
      exact absurd ((hs.org_eq hm).mp (horg hv)) hmo
  · have hnil : mineOf [v] = [] := by
      rw [mineOf_eq_nil]
      intro w hw
      rw [List.mem_singleton.mp hw]
      exact Bool.eq_false_of_not_eq_true hv
    refine hs.write hm hc _ ?_ (fun _ => hnil) hl
    rw [hnil, List.append_nil]
    exact hs.log

/-- A clone more is counted. -/
theorem Held.clone_one (hs : Held o n r s) (hn : n < 2 ^ 31 - 1) {q : ℕ} (hq : s.cells q = none)
    (hlive : q ∉ s.live) {c : MsgCell} (hcnt : c.mCnt = 1) (horg : c.mPOrg = some o)
    (hmine : mineOf c.mAVec = []) :
    Held o (n + 1) { r with mCnt := int32 (r.mCnt + 1) }
      { (s.put q c).put o { r with mCnt := int32 (r.mCnt + 1) } with live := q :: s.live } := by
  have hqo : q ≠ o := by
    rintro rfl
    rw [hs.org] at hq
    cases hq
  constructor
  · exact put_self
  · exact hs.root
  · rw [hs.cnt]
    have h : int32 ((n : ℤ) + 1) = n + 1 := int32_of_range (by omega) (by omega)
    rw [h, Nat.cast_succ]
  · omega
  · exact hs.mine
  · intro x hx hxo
    rw [put_ne hxo]
    rcases List.mem_cons.mp hx with rfl | hx
    · exact ⟨c, put_self, hcnt, horg, hmine⟩
    · rw [put_ne (ne_of_mem_of_not_mem hx hlive)]
      exact hs.clone x hx hxo
  · intro x hxo hx
    rw [put_ne hxo, put_ne (ne_of_mem_of_not_mem List.mem_cons_self hx).symm]
    exact hs.other x hxo fun h => hx (List.mem_cons_of_mem q h)
  · exact List.nodup_cons.mpr ⟨hlive, hs.nodup⟩
  · exact hs.freed
  · exact hs.log

/-- The original is counted down, and goes with its buffers when the count is 0. -/
theorem destroy_org {k : ℕ} (hc : s.cells o = some r) (hroot : r.mPOrg = none)
    (hcnt : r.mCnt = n + 1) (hn : n < 2 ^ 31) : msgDestroy (k + 1) s o =
      .ok (if 0 < n then s.put o { r with mCnt := n } else
        ({ s.put o { r with mCnt := n } with freed := s.freed ++ mineOf r.mAVec }).drop o) := by
  have hdec : int32 (r.mCnt - 1) = n := by
    rw [hcnt, Int.add_sub_cancel]
    exact int32_of_range (by omega) (by omega)
  unfold msgDestroy
  simp only [cell_of_some hc, Except.bind, hdec, hroot]
  by_cases h : 0 < n
  · rw [if_pos h, if_pos (by omega)]
  · rw [if_neg h, if_neg (by omega)]
    rfl

/-- A clone goes, and its original is counted down. -/
theorem destroy_clone {k : ℕ} (hc : s.cells m = some c) (hcnt : c.mCnt = 1)
    (horg : c.mPOrg = some o) : msgDestroy (k + 1) s m =
      (msgDestroy k (s.put m { c with mCnt := 0 }) o).map (·.drop m) := by
  have hdec : int32 (c.mCnt - 1) = 0 := by
    rw [hcnt]
    exact int32_of_range (by omega) (by omega)
  conv_lhs => unfold msgDestroy
  simp only [cell_of_some hc, Except.bind, hdec, horg]
  rw [if_neg (by omega)]
  rfl

/-- `MsgDestroy` of a live message. -/
theorem Held.destroy (hs : Held o (n + 1) r s) (hm : m ∈ s.live) :
    ∃ t, msgDestroy 2 { s with live := s.live.erase m } m = .ok t ∧
      t.live = s.live.erase m ∧ t.log = s.log ∧
      (∀ x, x ≠ o → t.cells x = if x = m then none else s.cells x) ∧
      t.cells o = (if 0 < n then some { r with mCnt := n } else none) ∧
      t.freed = if 0 < n then [] else mineOf r.mAVec := by
  have hn := hs.few
  have hcnt : r.mCnt = n + 1 := by rw [hs.cnt, Nat.cast_succ]
  by_cases hmo : m = o
  · subst hmo
    refine ⟨_, destroy_org (s := { s with live := s.live.erase m }) hs.org hs.root hcnt (by omega), ?_⟩
    split_ifs with h
    · refine ⟨rfl, rfl, ?_, put_self, hs.freed⟩
      intro x hx
      rw [if_neg hx]
      exact put_ne hx
    · refine ⟨rfl, rfl, ?_, drop_self, ?_⟩
      · intro x hx
        rw [if_neg hx, drop_ne hx]
        exact put_ne hx
      · change s.freed ++ mineOf r.mAVec = mineOf r.mAVec
        rw [hs.freed, List.nil_append]
  · obtain ⟨c, hc, hone, horg, -⟩ := hs.clone m hm hmo
    have hclone := destroy_clone (s := { s with live := s.live.erase m }) (k := 1) hc hone horg
    have hlast := destroy_org (s := ({ s with live := s.live.erase m } : MsgShare).put m
      { c with mCnt := 0 }) (k := 0) ((put_ne (Ne.symm hmo)).trans hs.org) hs.root hcnt (by omega)
    rw [hlast] at hclone
    refine ⟨_, hclone, ?_⟩
    split_ifs with h
    · refine ⟨rfl, rfl, ?_, ?_, hs.freed⟩
      · intro x hx
        by_cases hxm : x = m
        · rw [if_pos hxm, hxm, drop_self]
        · rw [if_neg hxm, drop_ne hxm, put_ne hx]
          exact put_ne hxm
      · rw [drop_ne (Ne.symm hmo), put_self]
    · refine ⟨rfl, rfl, ?_, ?_, ?_⟩
      · intro x hx
        by_cases hxm : x = m
        · rw [if_pos hxm, hxm, drop_self]
        · rw [if_neg hxm, drop_ne hxm, drop_ne hx]
          exact (put_ne hx).trans (put_ne hxm)
      · rw [drop_ne (Ne.symm hmo), drop_self]
      · change s.freed ++ mineOf r.mAVec = mineOf r.mAVec
        rw [hs.freed, List.nil_append]

/-- The rest of the messages keep the original, and the last one frees the buffers. -/
theorem Held.destroy_kept (hs : Held o s.live.length r s) (hm : m ∈ s.live) :
    ∃ t, msgDestroy 2 { s with live := s.live.erase m } m = .ok t ∧ Kept o t := by
  have hlen := List.length_erase_of_mem hm
  obtain ⟨n, hn⟩ := Nat.exists_eq_add_one.mpr (List.length_pos_of_mem hm)
  rw [hn] at hs hlen
  obtain ⟨t, ht, hlive, hlog, hcells, horg, hfreed⟩ := hs.destroy hm
  refine ⟨t, ht, ?_⟩
  rw [Nat.add_sub_cancel, ← hlive] at hlen
  have hother : ∀ x, x ≠ o → x ∉ t.live → t.cells x = none := by
    intro x hxo hx
    rw [hcells x hxo]
    split_ifs with hxm
    · rfl
    · refine hs.other x hxo fun h => hx ?_
      rw [hlive]
      exact (List.mem_erase_of_ne hxm).mpr h
  by_cases h : 0 < n
  · rw [if_pos h] at horg hfreed
    refine .inl ⟨List.ne_nil_of_length_pos (hlen ▸ h), { r with mCnt := n }, ?_⟩
    rw [hlen]
    constructor
    · exact horg
    · exact hs.root
    · rfl
    · exact Nat.lt_of_succ_lt hs.few
    · exact hlog ▸ hs.mine
    · intro x hx hxo
      rw [hlive, hs.nodup.mem_erase_iff] at hx
      rw [hcells x hxo, if_neg hx.1]
      exact hs.clone x hx.2 hxo
    · exact hother
    · rw [hlive]
      exact hs.nodup.erase m
    · exact hfreed
    · exact hlog ▸ hs.log
  · rw [if_neg h] at horg hfreed
    have hnil : t.live = [] := List.eq_nil_of_length_eq_zero (by omega)
    refine .inr ⟨hnil, ?_, ?_, ?_⟩
    · intro x
      by_cases hxo : x = o
      · exact hxo ▸ horg
      · exact hother x hxo (hnil ▸ List.not_mem_nil)
    · rw [hfreed, hlog]
      exact hs.mine
    · exact hlog ▸ hs.log

/-- What goes with `MsgAddDel` is owned by nobody when only disabled vectors are owned. -/
theorem mineOf_enabled {l : List BufVec} (h : ∀ v ∈ l, v.mine = true → v.disabled = true) :
    mineOf (l.filter fun v => !v.disabled) = [] := by
  rw [mineOf_eq_nil]
  intro v hv
  obtain ⟨hv, hd⟩ := List.mem_filter.mp hv
  by_contra hmine
  rw [h v hv (Bool.eq_true_of_not_eq_false hmine)] at hd
  cases hd

theorem map_disowned {l : List BufVec} (h : ∀ v ∈ l, v.mine = true → v.disabled = true) :
    (l.map fun v => if v.disabled then v else { v with mine := false }) = l := by
  have heq : ∀ v ∈ l, (if v.disabled then v else { v with mine := false }) = v := by
    intro v hv
    split_ifs with hd
    · rfl
    · have hmine := Bool.eq_false_of_not_eq_true fun hmine => hd (h v hv hmine)
      rw [← hmine]
  exact (List.map_congr_left heq).trans (List.map_id l)

theorem vecs_of_some (h : s.cells m = some c) : s.vecs m = c.mAVec := by
  unfold vecs
  rw [h]
  rfl

theorem Held.kept (hs : Held o s.live.length r s) (hm : m ∈ s.live) : Kept o s :=
  .inl ⟨List.ne_nil_of_mem hm, r, hs⟩

theorem Held.clone_kept (hs : Held o s.live.length r s) (hm : m ∈ s.live)
    (hn : s.live.length < 2 ^ 31 - 1) {q : ℕ} (hq : s.cells q = none) :
    ∃ t, s.msgClone m (some q) = .ok t ∧ Kept o { t with live := q :: t.live } := by
  obtain ⟨c, hc, horg, -⟩ := hs.get hm
  have hlive : q ∉ s.live := by
    intro h
    obtain ⟨d, hd, -⟩ := hs.get h
    rw [hq] at hd
    cases hd
  have hqo : o ≠ q := by
    rintro rfl
    rw [hs.org] at hq
    cases hq
  have hone := hs.clone_one hn hq hlive (c := { c with
    mAVec := c.mAVec.map fun v => { v with mine := false }
    mPOrg := some o
    mCnt := 1 }) rfl rfl (mineOf_clone c.mAVec)
  have hrun : s.msgClone m (some q) = .ok ((s.put q { c with
      mAVec := c.mAVec.map fun v => { v with mine := false }
      mPOrg := some o
      mCnt := 1 }).put o { r with mCnt := int32 (r.mCnt + 1) }) := by
    unfold msgClone
    simp only [cell_of_some hc, Except.bind, Option.elim_some, horg]
    rw [cell_of_some ((put_ne hqo).trans hs.org)]
    rfl
  exact ⟨_, hrun, .inl ⟨List.cons_ne_nil q s.live, _, hone⟩⟩

/-- A message goes into another one with its enabled vectors. -/
theorem Held.addDel_kept (hs : Held o s.live.length r s) {a : ℕ} (hm : m ∈ s.live)
    (ha : a ∈ s.live) (hi : Owned s (.addDel m a)) : ∃ t, s.msgAddDel m a = .ok t ∧ Kept o t := by
  obtain ⟨c, hc, -⟩ := hs.get hm
  obtain ⟨d, hd, -, hclone⟩ := hs.get ha
  simp only [Owned, vecs_of_some hd] at hi
  unfold msgAddDel
  simp only [cell_of_some hc, cell_of_some hd, Except.bind]
  by_cases hma : m = a
  · rw [if_pos hma, if_pos (List.all_eq_true.mpr (hi.1 hma))]
    exact hs.destroy_kept ha
  · rw [if_neg hma]
    -- a clone owns nothing, and the original is only added to clones
    have hlent : ∀ v ∈ d.mAVec, v.mine = true → v.disabled = true := by
      intro v hv hmine
      by_cases hao : a = o
      · exact hi.2 (fun h => hma (((hs.org_eq hm).mp h).trans hao.symm)) v hv hmine
      · rw [mineOf_eq_nil.mp (hclone hao) v hv] at hmine
        cases hmine
    obtain ⟨r, hs⟩ := hs.recell hm hc (l := c.mAVec ++ d.mAVec.filter fun v => !v.disabled) (by
      rw [mineOf_append, mineOf_enabled hlent, List.append_nil])
    obtain ⟨r, hs⟩ := hs.recell ha ((put_ne (Ne.symm hma)).trans hd) (l := d.mAVec.map fun v =>
      if v.disabled then v else { v with mine := false }) (by rw [map_disowned hlent])
    exact hs.destroy_kept ha

/-- A step that meets the condition keeps the messages. It reads no freed memory and ends. -/
theorem step_kept {i : MsgOp} (hs : Kept o s) (hi : Owned s i) :
    (∃ t, step s i = .ok t ∧ Kept o t) ∨ step s i = .error .caller ∨ step s i = .error .null := by
  rcases hs with ⟨hne, r, hs⟩ | hs
  · cases i with
    | clone m p =>
        by_cases hm : m ∈ s.live ∧ p.all (fun q => (s.cells q).isNone)
        · simp only [step, if_pos hm]
          cases p with
          | none =>
              obtain ⟨c, hc, -⟩ := hs.get hm.1
              refine .inr (.inr ?_)
              unfold msgClone
              rw [cell_of_some hc]
              rfl
          | some q =>
              obtain ⟨t, ht, hk⟩ := hs.clone_kept hm.1 hi (Option.isNone_iff_eq_none.mp hm.2)
              rw [ht]
              exact .inl ⟨_, rfl, hk⟩
        · simp only [step, if_neg hm]
          exact .inr (.inl trivial)
    | add m v =>
        by_cases hm : m ∈ s.live ∧ (v.mine → v.vPVoid ∉ s.log)
        · obtain ⟨c, hc, -⟩ := hs.get hm.1
          obtain ⟨r, hk⟩ := hs.add hm.1 hc hm.2 hi (l := c.mAVec ++ [v])
            (List.Perm.of_eq (mineOf_append ..))
          simp only [step, if_pos hm, msgAdd, cell_of_some hc]
          exact .inl ⟨_, rfl, hk.kept hm.1⟩
        · simp only [step, if_neg hm]
          exact .inr (.inl trivial)
    | insert m v =>
        by_cases hm : m ∈ s.live ∧ (v.mine → v.vPVoid ∉ s.log)
        · obtain ⟨c, hc, -⟩ := hs.get hm.1
          obtain ⟨r, hk⟩ := hs.add hm.1 hc hm.2 hi (l := v :: c.mAVec)
            (mineOf_cons v c.mAVec ▸ List.perm_append_comm)
          simp only [step, if_pos hm, msgInsert, cell_of_some hc]
          exact .inl ⟨_, rfl, hk.kept hm.1⟩
        · simp only [step, if_neg hm]
          exact .inr (.inl trivial)
    | addDel m a =>
        by_cases hm : m ∈ s.live ∧ a ∈ s.live
        · simp only [step, if_pos hm]
          exact .inl (hs.addDel_kept hm.1 hm.2 hi)
        · simp only [step, if_neg hm]
          exact .inr (.inl trivial)
    | destroy m =>
        by_cases hm : m ∈ s.live
        · simp only [step, if_pos hm]
          exact .inl (hs.destroy_kept hm)
        · simp only [step, if_neg hm]
          exact .inr (.inl trivial)
  · have hlive : ∀ m, m ∉ s.live := fun m => hs.live ▸ List.not_mem_nil
    refine .inr (.inl ?_)
    cases i with
    | clone m p => exact if_neg fun h => hlive m h.1
    | add m v => exact if_neg fun h => hlive m h.1
    | insert m v => exact if_neg fun h => hlive m h.1
    | addDel m a => exact if_neg fun h => hlive m h.1
    | destroy m => exact if_neg (hlive m)

/-- Messages made from one original, in any order of calls that meet the condition: a
vector in use has its buffer, and every buffer is freed once, with the last message that
reaches it. No call reads freed memory or goes on for ever. -/
theorem owned_run_right {is : List MsgOp} (hC : Along step Owned (start o) is) :
    (∀ s, run step (start o) is = .ok s → Right s) ∧
      ∀ e, run step (start o) is = .error e → e = .caller ∨ e = .null := by
  have hstep : ∀ s i t, Kept o s → Owned s i → step s i = .ok t → Kept o t := by
    intro s i t hs hi ht
    rcases step_kept hs hi with ⟨u, hu, hk⟩ | h | h
    · rw [ht] at hu
      cases hu
      exact hk
    · rw [ht] at h
      cases h
    · rw [ht] at h
      cases h
  constructor
  · intro s h
    exact (run_invariant hstep (start_kept o) hC h).right
  · intro e h
    refine run_error (E := fun e => e = .caller ∨ e = .null) hstep ?_ (start_kept o) hC h
    intro s i e hs hi he
    rcases step_kept hs hi with ⟨u, hu, -⟩ | h | h
    · rw [he] at hu
      cases hu
    · rw [he] at h
      cases h
      exact .inl rfl
    · rw [he] at h
      cases h
      exact .inr rfl

/-- A buffer that is shared with a clone, which outlives the original. -/
def shared : List MsgOp := [.add 1 ⟨true, false, 7⟩, .clone 1 (some 2), .destroy 1, .destroy 2]

theorem owned_run_right_shared :
    (∀ s, run step (start 1) shared = .ok s → Right s) ∧
      ∀ e, run step (start 1) shared = .error e → e = .caller ∨ e = .null := by
  apply owned_run_right
  refine ⟨fun _ => rfl, fun t ht => ?_⟩
  cases ht
  refine ⟨show 1 < 2 ^ 31 - 1 by decide, fun t ht => ?_⟩
  cases ht
  refine ⟨trivial, fun t ht => ?_⟩
  cases ht
  exact ⟨trivial, fun _ _ => trivial⟩

/-- An original that is added to its clone leaves its buffer there, and no message frees it. -/
theorem owned_by_clone_not_right : ¬ ∀ o is s, run step (start o) is = .ok s → Right s := by
  intro h
  have hright := h 1 [.add 1 ⟨true, false, 7⟩, .clone 1 (some 2), .addDel 2 1, .destroy 2] _ rfl
  have hcount := hright.gone 7 List.mem_cons_self (by rintro ⟨m, hm, -⟩; cases hm)
  revert hcount
  decide

end MsgShare
end PaxosSolutions.NWGadget
