import Mathlib.Data.List.Nodup
import PaxosSolutions.Lib.Buckets
import PaxosSolutions.Lib.File
import PaxosSolutions.Lib.Run

/-!
# Hash tables and their positions

`Hash_t` with its four kinds of keys, the count that is kept apart from the chains, and
the position that `HashGet` leaves for `HashNext`. What is in a table is a row of items
in the order they were put.
-/
namespace PaxosSolutions.NWGadget
open Lib

/-- `void *pKey`: the pointer, and what is read behind it by the kind of the keys. -/
structure HashKey (υ : Type) where
  addr : UInt64
  u64 : UInt64
  str : List UInt8
  user : υ
deriving DecidableEq, Repr

/-- `h_fHashCode` as it is switched on, with the functions of the user. -/
inductive HashKind (υ : Type) where
  | u64 | pnt | int | str
  | user (fHashCode : υ → ℤ) (fCompare : υ → υ → ℤ)

/-- `HashItem_t` at `iAddr`. A value may be `NULL`. -/
structure HashItem (υ β : Type) where
  iAddr : ℕ
  iPKey : HashKey υ
  iU64 : UInt64
  iPValue : Option β
deriving DecidableEq, Repr

/-- `Hash_t` -/
structure HashTable (υ β : Type) where
  hN : ℕ
  hKind : HashKind υ
  hHeads : ℕ → List (HashItem υ β)
  hCount : ℤ
  hCurIndex : ℤ
  hPCurItem : ℕ

variable {υ β : Type}

/-- The sum of the words of a string, the last of which may be short. -/
def strCode (s : List UInt8) : ℕ :=
  let len := int32 s.length
  let n4 := int32 (len % 2 ^ 64 / 4)
  let r := int32 (len - n4 * 4)
  let word := fun i l => Nat.ofDigits 256 (((s.drop (4 * i)).take l).map UInt8.toNat)
  (((List.range n4.toNat).map fun i => word i 4).sum + word n4.toNat r.toNat) % 2 ^ 32

/-- `HashCode` -/
def HashKind.index (k : HashKind υ) (hN : ℕ) (key : HashKey υ) : ℕ :=
  match k with
  | .u64 => key.u64.toNat % hN
  | .pnt => key.addr.toNat % 2 ^ 32 % hN
  | .int => key.addr.toNat % 2 ^ 32 % hN
  | .str => strCode key.str % hN
  | .user fHashCode _ => (fHashCode key.user % 2 ^ 32).toNat % hN

/-- `HashCompare` says 0. -/
def HashKind.equal (k : HashKind υ) (i : HashItem υ β) (key : HashKey υ) : Bool :=
  match k with
  | .u64 => i.iU64 = key.u64
  | .pnt => i.iPKey.addr = key.addr
  | .int => int32 (i.iPKey.addr.toNat - key.addr.toNat) = 0
  | .str => i.iPKey.str = key.str
  | .user _ fCompare => fCompare i.iPKey.user key.user = 0

/-- What is asked of the functions of the user: equal keys have one code, and a key is
equal to itself. -/
def HashKind.Agrees : HashKind υ → Prop
  | .user fHashCode fCompare =>
      (∀ a, fCompare a a = 0) ∧ ∀ a b, fCompare a b = 0 → fHashCode a = fHashCode b
  | _ => True

namespace HashTable

/-- `HashInit` -/
def init (size : ℕ) (kind : HashKind υ) : HashTable υ β :=
  ⟨size, kind, fun _ => [], 0, -1, 0⟩

/-- `HashItemAlloc` of memory at `p` -/
def alloc (h : HashTable υ β) (p : ℕ) (key : HashKey υ) (v : Option β) : HashItem υ β :=
  ⟨p, key, match h.hKind with | .u64 => key.u64 | _ => 0, v⟩

/-- `HashGetItem` -/
def getItem (h : HashTable υ β) (key : HashKey υ) : Option (HashItem υ β) × HashTable υ β :=
  let index := h.hKind.index h.hN key
  match (h.hHeads index).find? fun i => h.hKind.equal i key with
  | some i => (some i, { h with hCurIndex := index, hPCurItem := i.iAddr })
  | none => (none, { h with hCurIndex := -1 })

/-- The items of a chain behind the one at `p`. -/
def behind (p : ℕ) (l : List (HashItem υ β)) : List (HashItem υ β) :=
  (l.dropWhile fun i => i.iAddr ≠ p).tail

/-- `HashNextItem` -/
def nextItem (h : HashTable υ β) (key : HashKey υ) : Option (HashItem υ β) × HashTable υ β :=
  if h.hCurIndex < 0 then (none, h)
  else
    match (behind h.hPCurItem (h.hHeads h.hCurIndex.toNat)).find? fun i => h.hKind.equal i key with
    | some i => (some i, { h with hPCurItem := i.iAddr })
    | none => (none, { h with hCurIndex := -1 })

/-- `HashGet` -/
def get (h : HashTable υ β) (key : HashKey υ) : Option β × HashTable υ β :=
  let (i, h) := h.getItem key
  (i.bind (·.iPValue), h)

/-- `HashNext` -/
def next (h : HashTable υ β) (key : HashKey υ) : Option β × HashTable υ β :=
  let (i, h) := h.nextItem key
  (i.bind (·.iPValue), h)

/-- `HashPut`, with what `Malloc` returns. -/
def put (h : HashTable υ β) (p : Option ℕ) (key : HashKey υ) (v : Option β) : ℤ × HashTable υ β :=
  match p with
  | none => (-1, h)
  | some p =>
      let index := h.hKind.index h.hN key
      (0, { h with
        hHeads := Function.update h.hHeads index (h.hHeads index ++ [h.alloc p key v])
        hCount := int32 (h.hCount + 1) })

/-- `HashRemoveItem` of the item at `p` -/
def removeItem (h : HashTable υ β) (p : Option ℕ) : ℤ × HashTable υ β :=
  match p with
  | none => (-1, h)
  | some p =>
      (0, { h with
        hHeads := fun i => (h.hHeads i).filter fun x => x.iAddr ≠ p
        hCount := int32 (h.hCount - 1) })

/-- `HashRemove` -/
def remove (h : HashTable υ β) (key : HashKey υ) : Option β × HashTable υ β :=
  match h.getItem key with
  | (some i, h) => (i.iPValue, (h.removeItem (some i.iAddr)).2)
  | (none, h) => (none, h)

/-- The items that are linked in the buckets. -/
def linked (h : HashTable υ β) : List (HashItem υ β) := (List.range h.hN).flatMap h.hHeads

/-- `HashClear`, with the values `h_fDestroy` is called with. -/
def clear (h : HashTable υ β) : List (Option β) × HashTable υ β :=
  (h.linked.map (·.iPValue), { h with hHeads := fun i => if i < h.hN then [] else h.hHeads i })

/-- `HashCount` -/
def count (h : HashTable υ β) : ℤ := h.hCount

/-- `HashNext` until it returns `NULL` -/
def nexts : ℕ → HashTable υ β → HashKey υ → Option (List β)
  | 0, _, _ => none
  | fuel + 1, h, key =>
      match h.next key with
      | (none, _) => some []
      | (some v, h) => (nexts fuel h key).map (v :: ·)

/-- `HashGet`, and `HashNext` until it returns `NULL` -/
def enumerate (fuel : ℕ) (h : HashTable υ β) (key : HashKey υ) : Option (List β) :=
  match h.get key with
  | (none, _) => some []
  | (some v, h) => (nexts fuel h key).map (v :: ·)

end HashTable

/-! ### What is in a table -/

/-- A table and the items that were put and not removed since, the oldest first. -/
structure Hashed (υ β : Type) where
  table : HashTable υ β
  log : List (HashItem υ β) := []

/-- A call. A put has what `Malloc` returns. -/
inductive HashOp (υ β : Type) where
  | put (p : Option ℕ) (key : HashKey υ) (v : Option β)
  | remove (key : HashKey υ)
  | removeItem (p : Option ℕ)
  | clear

/-- What is no call: memory that is in use is got, an item that is not linked is removed. -/
inductive HashMisuse where
  | inUse | notLinked
deriving DecidableEq, Repr

namespace Hashed

def step (s : Hashed υ β) : HashOp υ β → Except HashMisuse (Hashed υ β)
  | .put none key v => .ok { s with table := (s.table.put none key v).2 }
  | .put (some p) key v =>
      if p ∈ s.log.map (·.iAddr) then .error .inUse
      else .ok ⟨(s.table.put (some p) key v).2, s.log ++ [s.table.alloc p key v]⟩
  | .remove key =>
      .ok ⟨(s.table.remove key).2, s.log.eraseP fun i => s.table.hKind.equal i key⟩
  | .removeItem none => .ok { s with table := (s.table.removeItem none).2 }
  | .removeItem (some p) =>
      if p ∈ s.log.map (·.iAddr) then
        .ok ⟨(s.table.removeItem (some p)).2, s.log.filter fun x => x.iAddr ≠ p⟩
      else .error .notLinked
  | .clear => .ok ⟨s.table.clear.2, []⟩

/-- The values under keys that are equal to `key`, the oldest first. -/
def values (s : Hashed υ β) (key : HashKey υ) : List (Option β) :=
  (s.log.filter fun i => s.table.hKind.equal i key).map (·.iPValue)

/-- The count is the number of linked items, a get finds the oldest one, and all are
gone through. -/
structure Right (s : Hashed υ β) : Prop where
  count : s.table.count = s.table.linked.length
  oldest : ∀ key, (s.table.get key).1 = (s.values key).head?.join
  all : ∀ key, ∃ fuel l, s.table.enumerate fuel key = some l ∧ l.map some = s.values key

/-- Nothing is cleared that has items, no `NULL` is put, and an `int` counts the items. -/
def Counted (s : Hashed υ β) : HashOp υ β → Prop
  | .put (some _) _ v => v ≠ none ∧ s.table.linked.length + 1 < 2 ^ 31
  | .clear => s.table.linked = []
  | _ => True

/-- The chains are those of the log, and the count is an `int`. -/
structure Kept (s : Hashed υ β) : Prop where
  pos : 0 < s.table.hN
  count : s.table.hCount < 2 ^ 31
  agrees : s.table.hKind.Agrees
  spread : Spread (fun i => s.table.hKind.index s.table.hN i.iPKey) s.table.hHeads s.log
  addrs : (s.log.map (·.iAddr)).Nodup
  u64 : ∀ i ∈ s.log, s.table.hKind = .u64 → i.iU64 = i.iPKey.u64

end Hashed

section Table
variable {k : HashKind υ} {i : HashItem υ β} {key : HashKey υ} {hN p fuel idx : ℕ}
  {h : HashTable υ β} {l pre post : List (HashItem υ β)}

/-! ### Keys and chains -/

/-- Equal keys are in one bucket. -/
theorem HashKind.index_eq_of_equal (hk : k.Agrees) (hu : k = .u64 → i.iU64 = i.iPKey.u64)
    (h : k.equal i key = true) : k.index hN i.iPKey = k.index hN key := by
  cases k with
  | u64 =>
      have hkey : i.iU64 = key.u64 := of_decide_eq_true h
      unfold HashKind.index
      rw [← hkey, hu rfl]
  | pnt =>
      have hkey : i.iPKey.addr = key.addr := of_decide_eq_true h
      unfold HashKind.index
      rw [hkey]
  | int =>
      have hkey : int32 (i.iPKey.addr.toNat - key.addr.toNat) = 0 := of_decide_eq_true h
      obtain ⟨q, hq, -⟩ := int32_spec (i.iPKey.addr.toNat - key.addr.toNat)
      have hmod : i.iPKey.addr.toNat % 2 ^ 32 = key.addr.toNat % 2 ^ 32 := by omega
      unfold HashKind.index
      rw [hmod]
  | str =>
      have hkey : i.iPKey.str = key.str := of_decide_eq_true h
      unfold HashKind.index
      rw [hkey]
  | user fHashCode fCompare =>
      have hkey : fCompare i.iPKey.user key.user = 0 := of_decide_eq_true h
      unfold HashKind.index
      simp only
      rw [hk.2 _ _ hkey]

theorem HashKind.equal_self (hk : k.Agrees) (hu : k = .u64 → i.iU64 = i.iPKey.u64) :
    k.equal i i.iPKey = true := by
  cases k with
  | u64 => exact decide_eq_true (hu rfl)
  | pnt => exact decide_eq_true rfl
  | int =>
      refine decide_eq_true ?_
      rw [Int.sub_self]
      rfl
  | str => exact decide_eq_true rfl
  | user fHashCode fCompare => exact decide_eq_true (hk.1 _)

theorem HashKind.index_lt (k : HashKind υ) (hN₀ : 0 < hN) (key : HashKey υ) : k.index hN key < hN := by
  cases k <;> exact Nat.mod_lt _ hN₀

namespace HashTable

/-- Behind an item of a chain is what follows it. -/
theorem behind_append (hn : ((pre ++ i :: post).map (·.iAddr)).Nodup) :
    behind i.iAddr (pre ++ i :: post) = post := by
  have hpre : ∀ x ∈ pre, (decide (x.iAddr ≠ i.iAddr)) = true := by
    intro x hx
    rw [List.map_append, List.nodup_append] at hn
    have hne := hn.2.2 x.iAddr (List.mem_map_of_mem hx) i.iAddr (by simp)
    exact decide_eq_true hne
  unfold behind
  rw [List.dropWhile_append_of_pos hpre, List.dropWhile_cons_of_neg (by simp), List.tail_cons]

theorem filter_of_split {q : HashItem υ β → Bool} (hpre : ∀ x ∈ pre, (!q x) = true)
    (hi : q i = true) : (pre ++ i :: post).filter q = i :: post.filter q := by
  have hnone : pre.filter q = [] := by
    apply List.filter_eq_nil_iff.mpr
    intro x hx
    simpa using hpre x hx
  rw [List.filter_append, hnone, List.nil_append, List.filter_cons, if_pos hi]

section Next
variable (key : HashKey υ) (hcur : h.hCurIndex = idx)
  (hchain : h.hHeads idx = pre ++ i :: post) (hitem : h.hPCurItem = i.iAddr) (hn : ((pre ++ i :: post).map (·.iAddr)).Nodup)
include hcur hchain hitem hn

theorem nextItem_none (hf : (post.find? fun x => h.hKind.equal x key) = none) :
    h.nextItem key = (none, { h with hCurIndex := -1 }) := by
  unfold nextItem
  rw [if_neg (by omega), hcur, Int.toNat_natCast, hchain, hitem, behind_append hn, hf]

theorem nextItem_some {x : HashItem υ β} (hf : (post.find? fun x => h.hKind.equal x key) = some x) :
    h.nextItem key = (some x, { h with hPCurItem := x.iAddr }) := by
  unfold nextItem
  rw [if_neg (by omega), hcur, Int.toNat_natCast, hchain, hitem, behind_append hn, hf]

/-- From an item on, the equal ones behind it are gone through. -/
theorem nexts_eq (hv : ∀ x ∈ post, x.iPValue ≠ none) (hfuel : post.length < fuel) :
    ∃ l, nexts fuel h key = some l ∧
      l.map some = (post.filter fun x => h.hKind.equal x key).map (·.iPValue) := by
  induction fuel generalizing h pre i post with
  | zero => omega
  | succ fuel ih =>
      unfold nexts next
      cases hf : post.find? fun x => h.hKind.equal x key with
      | none =>
          rw [nextItem_none key hcur hchain hitem hn hf]
          refine ⟨[], rfl, ?_⟩
          rw [List.filter_eq_nil_iff.mpr fun x hx => List.find?_eq_none.mp hf x hx]
          rfl
      | some x =>
          rw [nextItem_some key hcur hchain hitem hn hf]
          obtain ⟨hx, as, bs, rfl, has⟩ := List.find?_eq_some_iff_append.mp hf
          obtain ⟨v, hxv⟩ := Option.ne_none_iff_exists'.mp (hv x (by simp))
          have hchain' : h.hHeads idx = (pre ++ i :: as) ++ x :: bs := by
            rw [hchain, List.append_assoc, List.cons_append]
          have hlen : bs.length < fuel := by
            simp only [List.length_append, List.length_cons] at hfuel
            omega
          obtain ⟨l, hl, hmap⟩ := ih (h := { h with hPCurItem := x.iAddr }) hcur hchain' rfl
            (by rwa [← hchain', hchain]) (fun y hy => hv y (by simp [hy])) hlen
          refine ⟨v :: l, ?_, ?_⟩
          · simp only [Option.bind_some, hxv, hl, Option.map_some]
          · rw [filter_of_split has hx, List.map_cons, List.map_cons, hxv, hmap]

end Next

end HashTable

end Table

namespace Hashed
variable {s t : Hashed υ β} {key : HashKey υ} {op : HashOp υ β}

/-! ### What a table finds -/

theorem Kept.code (hs : s.Kept) (key : HashKey υ) : ∀ x ∈ s.log,
    s.table.hKind.equal x key = true →
      s.table.hKind.index s.table.hN x.iPKey = s.table.hKind.index s.table.hN key :=
  fun x hx hk => HashKind.index_eq_of_equal hs.agrees (hs.u64 x hx) hk

theorem Kept.find (hs : s.Kept) (key : HashKey υ) :
    (s.table.hHeads (s.table.hKind.index s.table.hN key)).find?
      (fun i => s.table.hKind.equal i key) = s.log.find? fun i => s.table.hKind.equal i key :=
  hs.spread.find_chain (hs.code key)

theorem Kept.get (hs : s.Kept) (key : HashKey υ) :
    (s.table.get key).1 = (s.values key).head?.join := by
  unfold HashTable.get HashTable.getItem values
  simp only
  rw [hs.find, List.head?_map, List.head?_filter]
  cases s.log.find? fun i => s.table.hKind.equal i key <;> rfl

theorem Kept.linked_length (hs : s.Kept) : s.table.linked.length = s.log.length :=
  hs.spread.length fun x _ => HashKind.index_lt _ hs.pos x.iPKey

theorem Kept.enumerate (hs : s.Kept) (hv : ∀ x ∈ s.log, x.iPValue ≠ none) (key : HashKey υ) :
    ∃ fuel l, s.table.enumerate fuel key = some l ∧ l.map some = s.values key := by
  have hchain := hs.spread.filter_chain (hs.code key)
  have hfind := hs.find key
  unfold HashTable.enumerate HashTable.get HashTable.getItem values
  simp only
  rw [← hchain]
  generalize hidx : s.table.hKind.index s.table.hN key = idx at *
  cases hf : (s.table.hHeads idx).find? fun i => s.table.hKind.equal i key with
  | none =>
      refine ⟨0, [], rfl, ?_⟩
      rw [List.filter_eq_nil_iff.mpr fun x hx => List.find?_eq_none.mp hf x hx]
      rfl
  | some x =>
      obtain ⟨hx, as, bs, hsplit, has⟩ := List.find?_eq_some_iff_append.mp hf
      have hmem : ∀ y ∈ s.table.hHeads idx, y ∈ s.log := fun y hy => (hs.spread.mem.mp hy).1
      have hn : ((s.table.hHeads idx).map (·.iAddr)).Nodup := by
        rw [hs.spread idx]
        exact hs.addrs.sublist (List.filter_sublist.map _)
      obtain ⟨v, hxv⟩ := Option.ne_none_iff_exists'.mp (hv x (hmem x (by simp [hsplit])))
      obtain ⟨l, hl, hmap⟩ := HashTable.nexts_eq key
        (h := { s.table with hCurIndex := idx, hPCurItem := x.iAddr }) rfl hsplit rfl
        (hsplit ▸ hn) (fun y hy => hv y (hmem y (by simp [hsplit, hy])))
        (Nat.lt_succ_self bs.length)
      refine ⟨bs.length + 1, v :: l, ?_, ?_⟩
      · simp only [Option.bind_some, hxv, hl, Option.map_some]
      · rw [hsplit, HashTable.filter_of_split has hx, List.map_cons, List.map_cons, hxv, hmap]

/-- A table that is kept is right if its count is and no value is `NULL`. -/
theorem Kept.right_iff (hs : s.Kept) :
    s.Right ↔ s.table.hCount = s.log.length ∧ ∀ x ∈ s.log, x.iPValue ≠ none := by
  constructor
  · intro h
    refine ⟨by rw [← hs.linked_length]; exact h.count, ?_⟩
    intro x hx hnull
    obtain ⟨fuel, l, -, hmap⟩ := h.all x.iPKey
    have hself := HashKind.equal_self hs.agrees (hs.u64 x hx)
    have hmem : none ∈ s.values x.iPKey :=
      List.mem_map.mpr ⟨x, List.mem_filter.mpr ⟨hx, hself⟩, hnull⟩
    rw [← hmap] at hmem
    obtain ⟨v, -, hv⟩ := List.mem_map.mp hmem
    cases hv
  · rintro ⟨hcount, hv⟩
    exact ⟨by rw [hs.linked_length]; exact hcount, hs.get, hs.enumerate hv⟩

/-! ### What a call keeps -/

theorem init_kept {size : ℕ} {kind : HashKind υ} (hsize : 0 < size) (hkind : kind.Agrees) :
    (⟨.init size kind, []⟩ : Hashed υ β).Kept where
  pos := hsize
  count := by
    change (0 : ℤ) < 2 ^ 31
    decide
  agrees := hkind
  spread := Spread.nil
  addrs := List.nodup_nil
  u64 := by
    intro i hi
    cases hi

/-- Taking items out of the log takes them out of the chains. -/
theorem Kept.filter {p : HashItem υ β → Bool} {n cur : ℤ} {item : ℕ} (hs : s.Kept) :
    Kept ⟨{ s.table with
      hHeads := fun i => (s.table.hHeads i).filter p
      hCount := int32 n
      hCurIndex := cur
      hPCurItem := item }, s.log.filter p⟩ where
  pos := hs.pos
  count := int32_lt n
  agrees := hs.agrees
  spread := hs.spread.filter
  addrs := hs.addrs.sublist (List.filter_sublist.map _)
  u64 := fun i hi => hs.u64 i (List.mem_filter.mp hi).1

/-- The first item that passes a test is the one with its address. -/
theorem eraseP_eq_filter {l : List (HashItem υ β)} {q : HashItem υ β → Bool} {x : HashItem υ β}
    (hn : (l.map (·.iAddr)).Nodup) (hx : l.find? q = some x) :
    l.eraseP q = l.filter fun y => y.iAddr ≠ x.iAddr := by
  induction l with
  | nil => cases hx
  | cons y l ih =>
      rw [List.map_cons, List.nodup_cons] at hn
      by_cases hy : q y
      · rw [List.find?_cons_of_pos hy] at hx
        cases hx
        rw [List.eraseP_cons_of_pos hy, List.filter_cons_of_neg (by simp)]
        symm
        apply List.filter_eq_self.mpr
        intro z hz
        refine decide_eq_true ?_
        intro hzy
        exact hn.1 (List.mem_map.mpr ⟨z, hz, hzy⟩)
      · rw [List.find?_cons_of_neg hy] at hx
        have hyx : y.iAddr ≠ x.iAddr := by
          intro h
          exact hn.1 (List.mem_map.mpr ⟨x, List.mem_of_find?_eq_some hx, h.symm⟩)
        rw [List.eraseP_cons_of_neg (by simpa using hy), List.filter_cons, if_pos (decide_eq_true hyx),
          ih hn.2 hx]

theorem length_filter_addr {l : List (HashItem υ β)} {x : HashItem υ β}
    (hn : (l.map (·.iAddr)).Nodup) (hx : x ∈ l) :
    (l.filter fun y => y.iAddr ≠ x.iAddr).length + 1 = l.length :=
  (perm_cons_filter hn hx).length_eq.symm

/-- What a call does to the log and the count: an item more, none left in a table that is
not counted anew, one item less, or nothing. -/
theorem step_cases (hs : s.Kept) (h : s.step op = .ok t) : t.Kept ∧
    ((∃ p key v, op = .put (some p) key v ∧ t.log = s.log ++ [s.table.alloc p key v] ∧
        t.table.hCount = int32 (s.table.hCount + 1)) ∨
      (op = .clear ∧ t.log = [] ∧ t.table.hCount = s.table.hCount) ∨
      (s.Counted op ∧ (∀ x ∈ t.log, x ∈ s.log) ∧ t.log.length + 1 = s.log.length ∧
        t.table.hCount = int32 (s.table.hCount - 1)) ∨
      (s.Counted op ∧ t.log = s.log ∧ t.table.hCount = s.table.hCount)) := by
  cases op with
  | put p key v =>
      cases p with
      | none =>
          cases h
          exact ⟨hs, .inr (.inr (.inr ⟨trivial, rfl, rfl⟩))⟩
      | some p =>
          simp only [step] at h
          split_ifs at h with hp
          cases h
          refine ⟨⟨hs.pos, int32_lt _, hs.agrees, ?_, ?_, ?_⟩, .inl ⟨p, key, v, rfl, rfl, rfl⟩⟩
          · exact hs.spread.append (x := s.table.alloc p key v)
          · rw [List.map_append, List.nodup_append]
            refine ⟨hs.addrs, List.nodup_singleton _, ?_⟩
            intro a ha b hb hab
            rw [List.mem_singleton.mp hb] at hab
            subst hab
            exact hp ha
          · intro i hi hu
            rcases List.mem_append.mp hi with hi | hi
            · exact hs.u64 i hi hu
            · have hu : s.table.hKind = .u64 := hu
              rw [List.mem_singleton.mp hi]
              unfold HashTable.alloc
              rw [hu]
  | remove key =>
      cases h
      have hfind := hs.find key
      unfold HashTable.remove HashTable.getItem
      simp only
      rw [hfind]
      cases hf : s.log.find? fun i => s.table.hKind.equal i key with
      | none =>
          rw [List.eraseP_of_forall_not fun x hx => by simpa using List.find?_eq_none.mp hf x hx]
          exact ⟨⟨hs.pos, hs.count, hs.agrees, hs.spread, hs.addrs, hs.u64⟩,
            .inr (.inr (.inr ⟨trivial, rfl, rfl⟩))⟩
      | some x =>
          have hx := List.mem_of_find?_eq_some hf
          rw [eraseP_eq_filter hs.addrs hf]
          refine ⟨hs.filter, .inr (.inr (.inl ⟨trivial, ?_, length_filter_addr hs.addrs hx, rfl⟩))⟩
          exact fun y hy => (List.mem_filter.mp hy).1
  | removeItem p =>
      cases p with
      | none =>
          cases h
          exact ⟨hs, .inr (.inr (.inr ⟨trivial, rfl, rfl⟩))⟩
      | some p =>
          simp only [step] at h
          split_ifs at h with hp
          cases h
          obtain ⟨x, hx, rfl⟩ := List.mem_map.mp hp
          refine ⟨hs.filter, .inr (.inr (.inl ⟨trivial, ?_, length_filter_addr hs.addrs hx, rfl⟩))⟩
          exact fun y hy => (List.mem_filter.mp hy).1
  | clear =>
      cases h
      refine ⟨⟨hs.pos, hs.count, hs.agrees, ?_, List.nodup_nil, by simp⟩,
        .inr (.inl ⟨rfl, rfl, rfl⟩)⟩
      intro i
      change (if i < s.table.hN then [] else s.table.hHeads i) = []
      split_ifs with hi
      · rfl
      · -- no code is that of another bucket
        rw [hs.spread i, List.filter_eq_nil_iff]
        intro x _ hx
        exact hi (of_decide_eq_true hx ▸ HashKind.index_lt _ hs.pos x.iPKey)

theorem step_kept (s : Hashed υ β) (op : HashOp υ β) (t : Hashed υ β) (hs : s.Kept)
    (h : s.step op = .ok t) : t.Kept := (step_cases hs h).1

/-- The next state is right if and only if the call is counted. -/
theorem step_right_iff (s : Hashed υ β) (op : HashOp υ β) (t : Hashed υ β) (hs : s.Kept)
    (hr : s.Right) (h : s.step op = .ok t) : t.Right ↔ s.Counted op := by
  obtain ⟨ht, hcase⟩ := step_cases hs h
  obtain ⟨hcount, hnull⟩ := hs.right_iff.mp hr
  have hlt := hs.count
  rw [ht.right_iff]
  rcases hcase with ⟨p, key, v, rfl, hlog, hc⟩ | ⟨rfl, hlog, hc⟩ | ⟨hop, hlog, hlen, hc⟩ |
    ⟨hop, hlog, hc⟩
  · have hlen : t.log.length = s.log.length + 1 := by rw [hlog]; simp
    have hcounted : t.table.hCount = t.log.length ↔ s.log.length + 1 < 2 ^ 31 := by
      obtain ⟨q, hq, hlo, hhi⟩ := int32_spec (s.table.hCount + 1)
      rw [hc, hlen]
      omega
    have hnulls : (∀ x ∈ t.log, x.iPValue ≠ none) ↔ v ≠ none := by
      rw [hlog, List.forall_mem_append, List.forall_mem_singleton]
      exact and_iff_right hnull
    rw [hcounted, hnulls, and_comm, ← hs.linked_length]
    rfl
  · rw [hc, hcount, hlog, List.length_nil]
    change _ ↔ s.table.linked = []
    rw [← List.length_eq_zero_iff, hs.linked_length]
    simp
  · refine iff_of_true ⟨?_, fun x hx => hnull x (hlog x hx)⟩ hop
    rw [hc, int32_of_range (by omega) (by omega)]
    omega
  · refine iff_of_true ⟨?_, ?_⟩ hop
    · rw [hc, hlog, hcount]
    · rw [hlog]
      exact hnull

/-- Every state reached is right if and only if no table with items is cleared, no `NULL` is
put, and there are never more items than an `int` counts. -/
theorem hash_right_iff {size : ℕ} {kind : HashKind υ} (hsize : 0 < size) (hkind : kind.Agrees)
    {ops : List (HashOp υ β)} {t : Hashed υ β} (hrun : run step ⟨.init size kind, []⟩ ops = .ok t) :
    (∀ js ks u, ops = js ++ ks → run step ⟨.init size kind, []⟩ js = .ok u → u.Right) ↔
      Along step Counted ⟨.init size kind, []⟩ ops := by
  have hkept : (⟨.init size kind, []⟩ : Hashed υ β).Kept := init_kept hsize hkind
  refine reached_iff_along step_kept step_right_iff hkept ?_ hrun
  rw [hkept.right_iff]
  exact ⟨rfl, by simp⟩

/-- Two items with one key, of which the older one is removed. -/
def putTwice : List (HashOp Unit ℕ) :=
  [.put (some 16) ⟨7, 0, [], ()⟩ (some 1), .put (some 64) ⟨7, 0, [], ()⟩ (some 2),
    .remove ⟨7, 0, [], ()⟩]

theorem hash_right_iff_putTwice : ∃ t, run step ⟨.init 5 .int, []⟩ putTwice = .ok t ∧
    ∀ js ks u, putTwice = js ++ ks → run step ⟨.init 5 .int, []⟩ js = .ok u → u.Right := by
  have hkind : (HashKind.int : HashKind Unit).Agrees := trivial
  refine ⟨_, rfl, (hash_right_iff (by decide) hkind rfl).mpr ?_⟩
  refine ⟨⟨by simp, by decide⟩, fun t ht => ?_⟩
  cases ht
  refine ⟨⟨by simp, by decide⟩, fun t ht => ?_⟩
  cases ht
  exact ⟨trivial, fun _ _ => trivial⟩

/-- `HashClear` takes the items out and leaves their count. -/
theorem hash_cleared_not_right : ¬ ∀ (size : ℕ) (kind : HashKind Unit) (ops : List (HashOp Unit ℕ))
    (t : Hashed Unit ℕ), 0 < size → kind.Agrees →
      run step ⟨.init size kind, []⟩ ops = .ok t → t.Right := by
  intro h
  have hright := h 5 .int [.put (some 16) ⟨7, 0, [], ()⟩ (some 1), .clear] _ (by decide) trivial rfl
  have hcount := hright.count
  revert hcount
  decide

end Hashed

end PaxosSolutions.NWGadget
