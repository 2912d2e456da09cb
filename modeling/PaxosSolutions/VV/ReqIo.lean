import PaxosSolutions.NWGadget.BTreeChange
import PaxosSolutions.VV.Stripes
import Mathlib.Order.Interval.Set.Defs

/-!
# Requests to a segment are merged

The requests to a segment lie in a B-tree by their offset. A new one is put together with
the one behind it and the one before it, where they touch in the segment and in memory.
A request whose buffer is to be freed stays as it is.
-/
namespace PaxosSolutions
open NWGadget

/-- `LV_IO_t`. Its bytes are within the offsets of a segment, and within the memory. -/
structure LvIo extends LVReq where
  off_le : off + len ≤ 0x8000000000000000
  pBuf_le : pBuf + len ≤ 0x10000000000000000

namespace LvIo

instance : Inhabited LvIo := ⟨{ flag := 0, pBuf := 0, len := 0, off := 0, off_le := by decide, pBuf_le := by decide }⟩

/-- `io_Flag & LV_IO_FREE` -/
def isFree (x : LvIo) : Bool := x.flag &&& LV_IO_FREE != 0

/-- `l` ends where `r` begins, in the segment and in memory. -/
def Touches (l r : LvIo) : Prop := l.off + l.len = r.off ∧ l.pBuf + l.len = r.pBuf

instance (l r : LvIo) : Decidable (l.Touches r) := inferInstanceAs (Decidable (_ ∧ _))

/-- `l` with the length of `r` added to its own -/
def concat (l r : LvIo) (h : l.Touches r) : LvIo where
  flag := l.flag
  pBuf := l.pBuf
  len := l.len + r.len
  off := l.off
  off_le := by
    rw [← Nat.add_assoc, h.1]
    exact r.off_le
  pBuf_le := by
    rw [← Nat.add_assoc, h.2]
    exact r.pBuf_le

/-- The bytes of a request: their offsets in the segment, and their addresses. -/
def bytes (x : LvIo) : Set (ℕ × ℕ) := {b | ∃ i < x.len, b = (x.off + i, x.pBuf + i)}

/-- The offsets of a request -/
def range (x : LvIo) : Set ℕ := Set.Ico x.off (x.off + x.len)

/-- Two requests do not overlap. -/
def Apart (x y : LvIo) : Prop := ∀ o ∈ x.range, o ∉ y.range

end LvIo

/-- `LV_IOCompare` -/
def lvIoCompare (pA pB : LvIo) : ℤ := (pA.off : ℤ) - pB.off

/-- `l_ReqLV_IO` as `LS_IOCreate` leaves it -/
def lsIoCreate : BTree LvIo := BTreeInit 10 lvIoCompare

/-- `BTInsert` of a copy of `*pReq` -/
def lsIoInsert (pReq : LvIo) (t : BTree LvIo) : Option (BTree LvIo × LvIo) :=
  (BTInsert pReq t).map fun t => (t, pReq)

/-- The part of `LS_IOInsertReqIO` that looks to the right: the tree, `*pReq` and the cursor. -/
def rightConcat (pReq : LvIo) (t : BTree LvIo) : Option (BTree LvIo × LvIo × BTCursor LvIo) := do
  let (cur, found) ← BTCFindLower t pReq BTCursorOpen
  let pR := cur.cKey
  if h : found = true ∧ pR.isFree = false ∧ pReq.Touches pR then
    let (t, _) ← BTDelete t pR
    some (t, pReq.concat pR h.2.2, cur)
  else some (t, pReq, cur)

/-- The part that looks to the left: the tree, and the request there that has grown. -/
def leftConcat (pReq : LvIo) (t : BTree LvIo) (cur : BTCursor LvIo) :
    Option (BTree LvIo × Option LvIo) := do
  let (cur, found) ← BTCFindUpper t pReq cur
  let pL := cur.cKey
  if h : found = true ∧ pL.isFree = false ∧ pL.Touches pReq then
    let pL := pL.concat pReq h.2.2
    some (cur.put pL t, some pL)
  else some (t, none)

/-- `LS_IOInsertReqIO`: the tree and `*pReq`. What it returns is not set where the request was
put together with the one on the left, and is not looked at. -/
def lsIoInsertReqIo (pReq : LvIo) (t : BTree LvIo) : Option (BTree LvIo × LvIo) :=
  if pReq.isFree then lsIoInsert pReq t
  else do
    let (t, pReq, cur) ← rightConcat pReq t
    let (t, joined) ← leftConcat pReq t cur
    match joined with
    | some pL => some (t, pL)
    | none => lsIoInsert pReq t

/-- One request after the other -/
def lsIoInsertReqIos : List LvIo → BTree LvIo → Option (BTree LvIo)
  | [], t => some t
  | pReq :: reqs, t => (lsIoInsertReqIo pReq t).bind fun r => lsIoInsertReqIos reqs r.1

/-- `LV_IODestroy`: the buffer that it frees. It returns 0. -/
def lvIoDestroy (pIo : LvIo) : Option ℕ := if pIo.isFree then some pIo.pBuf else none

/-- `LS_IODestroy`: the buffers that are freed -/
def lsIoDestroy (t : BTree LvIo) : Option (List ℕ) :=
  (BTreeDestroy (some fun _ => 0) t).map fun r => r.1.filterMap lvIoDestroy

/-! ### Requests that describe the same bytes -/

/-- What is in the tree, and what was inserted -/
structure Describes (reqs items : List LvIo) : Prop where
  bytes : ∀ b, (∃ x ∈ items, b ∈ x.bytes) ↔ ∃ x ∈ reqs, b ∈ x.bytes
  apart : items.Pairwise LvIo.Apart
  free : (items.filter LvIo.isFree).Perm (reqs.filter LvIo.isFree)

section Describes
variable {reqs items items' : List LvIo} {l r x : LvIo}

theorem LvIo.Apart.symm (h : l.Apart r) : r.Apart l := fun o hr hl => h o hl hr

theorem LvIo.apart_of (h : l.off + l.len ≤ r.off ∨ r.off + r.len ≤ l.off) : l.Apart r := by
  intro o hl hr
  have hl' := Set.mem_Ico.mp hl
  have hr' := Set.mem_Ico.mp hr
  omega

theorem LvIo.mem_range (x : LvIo) (o : ℕ) : o ∈ x.range ↔ ∃ a, (o, a) ∈ x.bytes := by
  constructor
  · intro ho
    obtain ⟨hle, hlt⟩ := ho
    exact ⟨x.pBuf + (o - x.off), o - x.off, by omega, by rw [Nat.add_sub_cancel' hle]⟩
  · intro h
    obtain ⟨a, i, hi, heq⟩ := h
    obtain ⟨rfl, -⟩ := Prod.mk.inj heq
    exact ⟨Nat.le_add_right _ _, by omega⟩

theorem LvIo.bytes_concat (h : l.Touches r) : (l.concat r h).bytes = l.bytes ∪ r.bytes := by
  obtain ⟨hoff, hbuf⟩ := id h
  ext b
  constructor
  · intro hb
    obtain ⟨i, hi, rfl⟩ := hb
    change i < l.len + r.len at hi
    by_cases hl : i < l.len
    · exact .inl ⟨i, hl, rfl⟩
    · refine .inr ⟨i - l.len, by omega, ?_⟩
      rw [← hoff, ← hbuf]
      change (l.off + i, l.pBuf + i) = _
      rw [Nat.add_assoc, Nat.add_assoc, Nat.add_sub_cancel' (by omega)]
  · intro hb
    rcases hb with hb | hb
    · obtain ⟨i, hi, rfl⟩ := hb
      exact ⟨i, Nat.lt_add_right _ hi, rfl⟩
    · obtain ⟨i, hi, rfl⟩ := hb
      refine ⟨l.len + i, Nat.add_lt_add_left hi _, ?_⟩
      rw [← hoff, ← hbuf, Nat.add_assoc, Nat.add_assoc]
      rfl

theorem LvIo.range_concat (h : l.Touches r) : (l.concat r h).range = l.range ∪ r.range := by
  ext o
  simp only [Set.mem_union, LvIo.mem_range, LvIo.bytes_concat, exists_or]

theorem Describes.perm (hd : Describes reqs items) (hp : items.Perm items') : Describes reqs items' where
  bytes b := by
    rw [← hd.bytes b]
    simp only [hp.mem_iff]
  apart := (hp.pairwise_iff fun h => h.symm).mp hd.apart
  free := (hp.symm.filter _).trans hd.free

/-- A request that does not overlap with those before it -/
theorem Describes.cons (hd : Describes reqs items) (hx : ∀ y ∈ reqs, x.Apart y) :
    Describes (x :: reqs) (x :: items) where
  bytes b := by
    simp only [List.mem_cons, exists_eq_or_imp, hd.bytes b]
  apart := by
    refine List.pairwise_cons.mpr ⟨?_, hd.apart⟩
    intro y hy o hox hoy
    -- an offset of an item is one of a request
    obtain ⟨a, ha⟩ := (y.mem_range o).mp hoy
    obtain ⟨z, hz, hza⟩ := (hd.bytes _).mp ⟨y, hy, ha⟩
    exact hx z hz o hox ((z.mem_range o).mpr ⟨a, hza⟩)
  free := by
    rw [List.filter_cons, List.filter_cons]
    split_ifs
    · exact hd.free.cons x
    · exact hd.free

/-- Two requests that touch are put together. -/
theorem Describes.concat (hd : Describes reqs (l :: r :: items)) (h : l.Touches r) (hl : l.isFree = false)
    (hr : r.isFree = false) : Describes reqs (l.concat r h :: items) where
  bytes b := by
    rw [← hd.bytes b]
    simp only [List.mem_cons, exists_eq_or_imp, LvIo.bytes_concat, Set.mem_union, or_assoc]
  apart := by
    obtain ⟨hlr, hrest⟩ := List.pairwise_cons.mp hd.apart
    obtain ⟨hr', hitems⟩ := List.pairwise_cons.mp hrest
    refine List.pairwise_cons.mpr ⟨?_, hitems⟩
    intro y hy o ho
    rw [LvIo.range_concat] at ho
    rcases ho with ho | ho
    · exact hlr y (List.mem_cons_of_mem r hy) o ho
    · exact hr' y hy o ho
  free := by
    have hfree := hd.free
    have hlr : (l.concat r h).isFree = false := hl
    rw [List.filter_cons, hl, List.filter_cons, hr] at hfree
    rw [List.filter_cons, hlr]
    exact hfree

end Describes

/-! ### The tree -/

theorem preorders_lvIoCompare : Preorders lvIoCompare where
  swap a b := by
    unfold lvIoCompare
    omega
  trans a b c := by
    unfold lvIoCompare
    omega

/-- The tree holds the requests in order. -/
abbrev LsIoHas (t : BTree LvIo) (items : List LvIo) : Prop := Followed 10 lvIoCompare t items 0 items

section Tree
variable {t : BTree LvIo} {reqs items : List LvIo} {pReq : LvIo}

theorem lsIoInsert_spec (h : LsIoHas t items) (hd : Describes reqs (pReq :: items)) :
    ∃ t' items', lsIoInsert pReq t = some (t', pReq) ∧ LsIoHas t' items' ∧ Describes reqs items' := by
  obtain ⟨t', items', hrun, hf⟩ := h.insert preorders_lvIoCompare pReq
  have hperm : items'.Perm (pReq :: items) := by
    refine Multiset.coe_eq_coe.mp ?_
    rw [← add_zero (items' : Multiset LvIo), hf.multiset]
    rfl
  refine ⟨t', items', ?_, hf.now, hd.perm hperm.symm⟩
  unfold lsIoInsert
  rw [hrun]
  rfl

/-- The request on the right that touches is taken out, and the new one has grown. -/
theorem rightConcat_spec (h : LsIoHas t items) (hfree : pReq.isFree = false)
    (hd : Describes reqs (pReq :: items)) : ∃ t' req cur items', rightConcat pReq t = some (t', req, cur) ∧
      LsIoHas t' items' ∧ req.isFree = false ∧ Describes reqs (req :: items') := by
  have hc : Preorders t.bCompare := h.compare ▸ preorders_lvIoCompare
  have ho : Ordered t.bCompare items := h.compare ▸ h.ordered
  obtain ⟨cur, found, hfind, -, hat⟩ := btcFindLower_right hc h.has ho pReq BTCursorOpen
  unfold rightConcat
  rw [hfind]
  by_cases hjoin : found = true ∧ cur.cKey.isFree = false ∧ pReq.Touches cur.cKey
  · obtain ⟨r, x, hstands, hnot, hbefore⟩ := hat hjoin.1
    obtain rfl := hstands.key
    rw [h.has.inOrder, h.compare] at hbefore
    rw [h.compare] at hnot
    have hbelow : ∀ y ∈ items.take r, lvIoCompare y cur.cKey < 0 := by
      intro y hy
      have hy' := hbefore y hy
      unfold lvIoCompare at hy' hnot ⊢
      omega
    obtain ⟨t', hdelete, hhas⟩ := h.deleteKey preorders_lvIoCompare hstands.isAt hbelow
    refine ⟨t', pReq.concat cur.cKey hjoin.2.2, cur, _, ?_, hhas, hfree, ?_⟩
    · change (if h : _ then (BTDelete t cur.cKey).bind _ else _) = _
      rw [dif_pos hjoin, hdelete]
      rfl
    · have hperm : items.Perm (cur.cKey :: (items.take r ++ items.drop (r + 1))) := by
        conv_lhs => rw [h.around hstands.isAt]
        exact List.perm_middle
      exact (hd.perm (hperm.cons pReq)).concat hjoin.2.2 hfree hjoin.2.1
  · refine ⟨t, pReq, cur, items, ?_, h, hfree, hd⟩
    change (if h : _ then (BTDelete t cur.cKey).bind _ else _) = _
    rw [dif_neg hjoin]

/-- The request on the left that touches grows in its place. -/
theorem leftConcat_spec (h : LsIoHas t items) (hfree : pReq.isFree = false)
    (hd : Describes reqs (pReq :: items)) (cur : BTCursor LvIo) :
    ∃ t' joined items', leftConcat pReq t cur = some (t', joined) ∧ LsIoHas t' items' ∧
      ((joined = none ∧ Describes reqs (pReq :: items')) ∨
        ∃ req, joined = some req ∧ Describes reqs items') := by
  have hc : Preorders t.bCompare := h.compare ▸ preorders_lvIoCompare
  have ho : Ordered t.bCompare items := h.compare ▸ h.ordered
  obtain ⟨cur, found, hfind, -, hat⟩ := btcFindUpper_right hc h.has ho pReq cur
  unfold leftConcat
  rw [hfind]
  by_cases hjoin : found = true ∧ cur.cKey.isFree = false ∧ cur.cKey.Touches pReq
  · obtain ⟨r, x, hstands, -⟩ := hat hjoin.1
    obtain rfl := hstands.key
    -- its offset is what it was, and so is its place
    have hput := h.put (y := cur.cKey.concat pReq hjoin.2.2) hstands.isAt fun z => ⟨rfl, rfl⟩
    refine ⟨_, some (cur.cKey.concat pReq hjoin.2.2), _, ?_, hput, .inr ⟨_, rfl, ?_⟩⟩
    · change (if h : _ then _ else _) = _
      rw [dif_pos hjoin]
    · have hperm : (pReq :: items).Perm (cur.cKey :: pReq :: (items.take r ++ items.drop (r + 1))) := by
        conv_lhs => rw [h.around hstands.isAt]
        exact (List.perm_middle.cons pReq).trans (List.Perm.swap _ _ _)
      exact ((hd.perm hperm).concat hjoin.2.2 hjoin.2.1 hfree).perm List.perm_middle.symm
  · refine ⟨t, none, items, ?_, h, .inl ⟨rfl, hd⟩⟩
    change (if h : _ then _ else _) = _
    rw [dif_neg hjoin]

theorem lsIoInsertReqIo_spec (h : LsIoHas t items) (hd : Describes reqs (pReq :: items)) :
    ∃ t' req items', lsIoInsertReqIo pReq t = some (t', req) ∧ LsIoHas t' items' ∧ Describes reqs items' := by
  unfold lsIoInsertReqIo
  by_cases hfree : pReq.isFree = true
  · obtain ⟨t', items', hrun, hhas, hd'⟩ := lsIoInsert_spec h hd
    rw [if_pos hfree]
    exact ⟨t', pReq, items', hrun, hhas, hd'⟩
  · obtain ⟨t₁, req, cur, items₁, hright, h₁, hreq, hd₁⟩ :=
      rightConcat_spec h (Bool.eq_false_iff.mpr hfree) hd
    obtain ⟨t₂, joined, items₂, hleft, h₂, hjoined⟩ := leftConcat_spec h₁ hreq hd₁ cur
    rw [if_neg hfree, hright]
    change ∃ t' req' items', (leftConcat req t₁ cur).bind _ = some (t', req') ∧ _
    rw [hleft]
    rcases hjoined with ⟨rfl, hd₂⟩ | ⟨pL, rfl, hd₂⟩
    · obtain ⟨t', items', hrun, hhas, hd'⟩ := lsIoInsert_spec h₂ hd₂
      exact ⟨t', req, items', hrun, hhas, hd'⟩
    · exact ⟨t₂, pL, items₂, rfl, h₂, hd₂⟩

theorem lsIoInsertReqIos_spec {more : List LvIo} (h : LsIoHas t items) (hd : Describes reqs items)
    (hmore : more.Pairwise LvIo.Apart) (hapart : ∀ x ∈ more, ∀ y ∈ reqs, x.Apart y) :
    ∃ t' items', lsIoInsertReqIos more t = some t' ∧ LsIoHas t' items' ∧
      Describes (more.reverse ++ reqs) items' := by
  induction more generalizing t items reqs with
  | nil => exact ⟨t, items, rfl, h, hd⟩
  | cons x more ih =>
      obtain ⟨hx, hmore⟩ := List.pairwise_cons.mp hmore
      obtain ⟨t₁, req, items₁, hrun, h₁, hd₁⟩ := lsIoInsertReqIo_spec h (hd.cons (hapart x List.mem_cons_self))
      have hapart₁ : ∀ y ∈ more, ∀ z ∈ x :: reqs, y.Apart z := by
        intro y hy z hz
        rcases List.mem_cons.mp hz with rfl | hz
        · exact (hx y hy).symm
        · exact hapart y (List.mem_cons_of_mem x hy) z hz
      obtain ⟨t', items', hrest, h', hd'⟩ := ih h₁ hd₁ hmore hapart₁
      refine ⟨t', items', ?_, h', ?_⟩
      · rw [lsIoInsertReqIos, hrun]
        exact hrest
      · rw [List.reverse_cons, List.append_assoc]
        exact hd'

/-- The buffers of the requests that are to be freed -/
theorem filterMap_lvIoDestroy (items : List LvIo) :
    items.filterMap lvIoDestroy = (items.filter LvIo.isFree).map fun x => x.pBuf := by
  induction items with
  | nil => rfl
  | cons x items ih =>
      rw [List.filterMap_cons, List.filter_cons]
      unfold lvIoDestroy
      cases hx : x.isFree with
      | false => exact ih
      | true => exact congrArg _ ih

/-- In every order of requests that do not overlap, what is in the tree describes the bytes
that were inserted and does not overlap, and the requests whose buffers are to be freed are
in it as they were, until each of these buffers is freed once. -/
theorem lsIoInsertReqIos_merged (reqs : List LvIo) (hapart : reqs.Pairwise LvIo.Apart) :
    ∃ t, lsIoInsertReqIos reqs lsIoCreate = some t ∧
      (∀ b, (∃ x ∈ t.inOrder, b ∈ x.bytes) ↔ ∃ x ∈ reqs, b ∈ x.bytes) ∧
      t.inOrder.Pairwise LvIo.Apart ∧
      (t.inOrder.filter LvIo.isFree).Perm (reqs.filter LvIo.isFree) ∧
      ∃ freed, lsIoDestroy t = some freed ∧
        freed.Perm ((reqs.filter LvIo.isFree).map fun x => x.pBuf) := by
  have hinit : LsIoHas lsIoCreate [] :=
    ⟨rfl, rfl, ⟨by decide, .inl ⟨rfl, rfl⟩⟩, List.Pairwise.nil, rfl, rfl⟩
  have hnone : Describes [] [] := ⟨fun b => Iff.rfl, List.Pairwise.nil, List.Perm.refl _⟩
  obtain ⟨t, items, hrun, h, hd⟩ := lsIoInsertReqIos_spec hinit hnone hapart
    (fun x _ y hy => absurd hy List.not_mem_nil)
  rw [List.append_nil] at hd
  obtain ⟨t', ended, hdestroy, -⟩ := h.destroy preorders_lvIoCompare (some fun _ => 0) fun f hf x _ => by
    cases hf
    exact Int.le_refl 0
  have hfree : (items.filter LvIo.isFree).Perm (reqs.filter LvIo.isFree) :=
    hd.free.trans ((List.reverse_perm reqs).filter _)
  rw [← h.has.inOrder] at hfree hd
  refine ⟨t, hrun, ?_, hd.apart, hfree, items.filterMap lvIoDestroy, ?_, ?_⟩
  · intro b
    rw [hd.bytes b]
    simp only [List.mem_reverse]
  · unfold lsIoDestroy
    rw [hdestroy]
    rfl
  · rw [filterMap_lvIoDestroy, ← h.has.inOrder]
    exact hfree.map _

/-- A request between two that it touches, and one behind them with a buffer to be freed -/
def joinedReqs : List LvIo :=
  [{ flag := 0, pBuf := 1000, len := 1024, off := 0, off_le := by decide, pBuf_le := by decide },
    { flag := 0, pBuf := 3048, len := 1024, off := 2048, off_le := by decide, pBuf_le := by decide },
    { flag := LV_IO_FREE, pBuf := 4072, len := 1024, off := 3072, off_le := by decide, pBuf_le := by decide },
    { flag := 0, pBuf := 2024, len := 1024, off := 1024, off_le := by decide, pBuf_le := by decide }]

theorem lsIoInsertReqIos_joined : ∃ t, lsIoInsertReqIos joinedReqs lsIoCreate = some t ∧
    (t.inOrder.map fun x => (x.off, x.len)) = [(0, 3072), (3072, 1024)] ∧
    ∃ freed, lsIoDestroy t = some freed ∧ freed.Perm [4072] := by
  have hbehind : joinedReqs.Pairwise fun l r => l.off + l.len ≤ r.off ∨ r.off + r.len ≤ l.off := by decide
  have hapart : joinedReqs.Pairwise LvIo.Apart := hbehind.imp LvIo.apart_of
  obtain ⟨t, hrun, -, -, -, hfreed⟩ := lsIoInsertReqIos_merged joinedReqs hapart
  have hkeys : (lsIoInsertReqIos joinedReqs lsIoCreate).map (fun t => t.inOrder.map fun x => (x.off, x.len)) =
      some [(0, 3072), (3072, 1024)] := by decide +kernel
  rw [hrun] at hkeys
  exact ⟨t, hrun, Option.some.inj hkeys, hfreed⟩

end Tree

end PaxosSolutions
