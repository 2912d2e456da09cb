import PaxosSolutions.NWGadget.HashTable

/-!
# Hash tables of two levels

A `DHash_t` keeps the first items of a bucket in a list and the others in a hash table
of the bucket. A get looks through the table and then through the list. So does every
next, but from the start of the list, and an item of the list is found for ever.
-/
namespace PaxosSolutions.NWGadget
open Lib

/-- `DHashElm_t` -/
structure DHashElm (υ β : Type) where
  eCnt : ℤ := 0
  ePHash : Option (HashTable υ β) := none

/-- `DHash_t`. A pointer to an item is 0 where it is `NULL`. -/
structure DHash (υ β : Type) where
  dPrimary1Size : ℤ
  dPrimary2 : ℕ
  dAElm : ℕ → DHashElm υ β
  dHash : HashTable υ β

variable {υ β : Type}

namespace DHash

/-- `DHashInit` -/
def init (prim1 : ℕ) (prim1Size : ℤ) (prim2 : ℕ) (kind : HashKind υ) : DHash υ β :=
  ⟨prim1Size, prim2, fun _ => {}, .init prim1 kind⟩

def index (d : DHash υ β) (key : HashKey υ) : ℕ := d.dHash.hKind.index d.dHash.hN key

/-- `DHashPut`, with what `Malloc` returns for the item. -/
def put (d : DHash υ β) (p : Option ℕ) (key : HashKey υ) (v : β) : ℤ × DHash υ β :=
  let ind1 := d.index key
  let elm1 := d.dAElm ind1
  let eCnt := int32 (elm1.eCnt + 1)
  if elm1.eCnt < d.dPrimary1Size then
    let (ret, hash1) := d.dHash.put p key (some v)
    (ret, { d with
      dHash := { hash1 with hCount := int32 (hash1.hCount + 1) }
      dAElm := Function.update d.dAElm ind1 { elm1 with eCnt } })
  else
    let hash2 := elm1.ePHash.getD (.init d.dPrimary2 d.dHash.hKind)
    let (ret, hash2) := hash2.put p key (some v)
    (ret, { d with
      dHash := { d.dHash with hCount := int32 (d.dHash.hCount + 1) }
      dAElm := Function.update d.dAElm ind1 ⟨eCnt, some hash2⟩ })

/-- The part that `DHashGet` and `DHashNext` share: the table of the bucket is asked with
`f`, and then the list is searched from its start. -/
def look (d : DHash υ β) (ind1 : ℕ) (key : HashKey υ)
    (f : HashTable υ β → Option (HashItem υ β) × HashTable υ β) :
    Option (HashItem υ β) × DHash υ β :=
  let first := fun d : DHash υ β =>
    match (d.dHash.hHeads ind1).find? fun i => d.dHash.hKind.equal i key with
    | some i => (some i, { d with dHash := { d.dHash with hPCurItem := i.iAddr } })
    | none => (none, d)
  match (d.dAElm ind1).ePHash with
  | none => first d
  | some hash2 =>
      let d' := { d with
        dHash := { d.dHash with hPCurItem := 0 }
        dAElm := Function.update d.dAElm ind1 { d.dAElm ind1 with ePHash := some (f hash2).2 } }
      match (f hash2).1 with
      | some i => (some i, d')
      | none => first d'

/-- `DHashGet` up to the item -/
def getItem (d : DHash υ β) (key : HashKey υ) : Option (HashItem υ β) × DHash υ β :=
  let ind1 := d.index key
  look { d with dHash := { d.dHash with hCurIndex := ind1 } } ind1 key (·.getItem key)

/-- `DHashNext` up to the item -/
def nextItem (d : DHash υ β) (key : HashKey υ) : Option (HashItem υ β) × DHash υ β :=
  let ind1 := d.dHash.hCurIndex
  if ind1 < 0 ∨ d.dHash.hN ≤ ind1 then (none, d)
  else d.look ind1.toNat key (·.nextItem key)

/-- `DHashGet` -/
def get (d : DHash υ β) (key : HashKey υ) : Option β × DHash υ β :=
  let (i, d) := d.getItem key
  (i.bind (·.iPValue), d)

/-- `DHashNext` -/
def next (d : DHash υ β) (key : HashKey υ) : Option β × DHash υ β :=
  let (i, d) := d.nextItem key
  (i.bind (·.iPValue), d)

/-- `DHashRemove` -/
def remove (d : DHash υ β) (key : HashKey υ) : Option β × DHash υ β :=
  match d.get key with
  | (none, d) => (none, d)
  | (some v, d) =>
      let ind1 := d.dHash.hCurIndex.toNat
      let elm1 := d.dAElm ind1
      let eCnt := int32 (elm1.eCnt - 1)
      if d.dHash.hPCurItem ≠ 0 then
        (some v, { d with
          dHash := (d.dHash.removeItem (some d.dHash.hPCurItem)).2
          dAElm := Function.update d.dAElm ind1 { elm1 with eCnt } })
      else
        match elm1.ePHash with
        | none => (some v, d)
        | some hash2 =>
            (some v, { d with
              dAElm := Function.update d.dAElm ind1
                ⟨eCnt, some (hash2.removeItem (some hash2.hPCurItem)).2⟩ })

/-- `DHashCount` -/
def count (d : DHash υ β) : ℤ :=
  (List.range d.dHash.hN).foldl (fun total i => int32 (total + (d.dAElm i).eCnt)) 0

/-- `DHashNext` until it returns `NULL` -/
def nexts : ℕ → DHash υ β → HashKey υ → Option (List β)
  | 0, _, _ => none
  | fuel + 1, d, key =>
      match d.next key with
      | (none, _) => some []
      | (some v, d) => (nexts fuel d key).map (v :: ·)

/-- `DHashGet`, and `DHashNext` until it returns `NULL` -/
def enumerate (fuel : ℕ) (d : DHash υ β) (key : HashKey υ) : Option (List β) :=
  match d.get key with
  | (none, _) => some []
  | (some v, d) => (nexts fuel d key).map (v :: ·)

/-- An item of the list of its bucket has an equal key. -/
def InFirst (d : DHash υ β) (key : HashKey υ) : Prop :=
  ∃ i ∈ d.dHash.hHeads (d.index key), d.dHash.hKind.equal i key = true

end DHash

/-- A table, the items that were put and not removed since, and the number of puts that
got no memory. -/
structure DHashed (υ β : Type) where
  hash : DHash υ β
  log : List (HashItem υ β) := []
  failed : ℕ := 0

/-- A call. A put has what `Malloc` returns for the item. -/
inductive DHashOp (υ β : Type) where
  | put (p : Option ℕ) (key : HashKey υ) (v : β)
  | remove (key : HashKey υ)

namespace DHashed

/-- A put with memory that is in use, or at `NULL`, is no call. A remove takes out the item
that `DHashGet` finds. -/
def step (s : DHashed υ β) : DHashOp υ β → Except HashMisuse (DHashed υ β)
  | .put none key v => .ok { s with hash := (s.hash.put none key v).2, failed := s.failed + 1 }
  | .put (some p) key v =>
      if p = 0 ∨ p ∈ s.log.map (·.iAddr) then .error .inUse
      else
        .ok { s with
          hash := (s.hash.put (some p) key v).2
          log := s.log ++ [s.hash.dHash.alloc p key (some v)] }
  | .remove key =>
      .ok { s with
        hash := (s.hash.remove key).2
        log :=
          match (s.hash.getItem key).1 with
          | none => s.log
          | some i => s.log.filter fun x => x.iAddr ≠ i.iAddr }

/-- The values under keys that are equal to `key`. -/
def values (s : DHashed υ β) (key : HashKey υ) : List (Option β) :=
  (s.log.filter fun i => s.hash.dHash.hKind.equal i key).map (·.iPValue)

/-- The count is the number of items, and the values under the key are gone through, each
once. -/
structure Right (s : DHashed υ β) (key : HashKey υ) : Prop where
  count : s.hash.count = s.log.length
  all : ∃ fuel l, s.hash.enumerate fuel key = some l ∧ (l.map some).Perm (s.values key)

end DHashed

/-! ### What a search moves -/

/-- Only the position is another one. -/
def HashTable.Moved (h h' : HashTable υ β) : Prop :=
  ∃ c p, h' = { h with hCurIndex := c, hPCurItem := p }

section Moved
variable {h h' : HashTable υ β} {l : List (HashItem υ β)} {key : HashKey υ}

theorem HashTable.getItem_moved : h.Moved (h.getItem key).2 := by
  unfold HashTable.getItem
  simp only
  split
  · exact ⟨_, _, rfl⟩
  · exact ⟨_, h.hPCurItem, rfl⟩

theorem HashTable.nextItem_moved : h.Moved (h.nextItem key).2 := by
  unfold HashTable.nextItem
  split
  · exact ⟨h.hCurIndex, h.hPCurItem, rfl⟩
  · split
    · exact ⟨h.hCurIndex, _, rfl⟩
    · exact ⟨_, h.hPCurItem, rfl⟩

theorem Hashed.Kept.moved (hs : (⟨h, l⟩ : Hashed υ β).Kept) (hm : h.Moved h') :
    (⟨h', l⟩ : Hashed υ β).Kept := by
  obtain ⟨c, p, rfl⟩ := hm
  exact ⟨hs.pos, hs.count, hs.agrees, hs.spread, hs.addrs, hs.u64⟩

theorem Hashed.Kept.recount {n : ℤ} (hs : (⟨h, l⟩ : Hashed υ β).Kept) :
    (⟨{ h with hCount := int32 n }, l⟩ : Hashed υ β).Kept :=
  ⟨hs.pos, int32_lt n, hs.agrees, hs.spread, hs.addrs, hs.u64⟩

end Moved

namespace DHash

/-- Only positions are other ones. -/
structure Moved (d d' : DHash υ β) : Prop where
  size : d'.dPrimary1Size = d.dPrimary1Size
  prim2 : d'.dPrimary2 = d.dPrimary2
  hash : d.dHash.Moved d'.dHash
  cnt : ∀ b, (d'.dAElm b).eCnt = (d.dAElm b).eCnt
  without : ∀ b, (d'.dAElm b).ePHash = none → (d.dAElm b).ePHash = none
  table : ∀ b h', (d'.dAElm b).ePHash = some h' → ∃ h, (d.dAElm b).ePHash = some h ∧ h.Moved h'

variable {d d' : DHash υ β} {ind1 : ℕ} {key : HashKey υ}
  {f : HashTable υ β → Option (HashItem υ β) × HashTable υ β}

theorem Moved.kind (hm : d.Moved d') : d'.dHash.hKind = d.dHash.hKind := by
  obtain ⟨c, p, h⟩ := hm.hash
  rw [h]

theorem Moved.hN (hm : d.Moved d') : d'.dHash.hN = d.dHash.hN := by
  obtain ⟨c, p, h⟩ := hm.hash
  rw [h]

theorem Moved.hHeads (hm : d.Moved d') : d'.dHash.hHeads = d.dHash.hHeads := by
  obtain ⟨c, p, h⟩ := hm.hash
  rw [h]

theorem Moved.trans {d'' : DHash υ β} (h : d.Moved d') (h' : d'.Moved d'') : d.Moved d'' where
  size := h'.size.trans h.size
  prim2 := h'.prim2.trans h.prim2
  hash := by
    obtain ⟨c, p, hd⟩ := h.hash
    obtain ⟨c', p', hd'⟩ := h'.hash
    exact ⟨c', p', by rw [hd', hd]⟩
  cnt b := (h'.cnt b).trans (h.cnt b)
  without b hb := h.without b (h'.without b hb)
  table b t ht := by
    obtain ⟨u, hu, c', p', hd'⟩ := h'.table b t ht
    obtain ⟨w, hw, c, p, hd⟩ := h.table b u hu
    exact ⟨w, hw, c', p', by rw [hd', hd]⟩

/-- A position in the list is another one. -/
theorem moved_hash (c : ℤ) (p : ℕ) :
    d.Moved { d with dHash := { d.dHash with hCurIndex := c, hPCurItem := p } } where
  size := rfl
  prim2 := rfl
  hash := ⟨c, p, rfl⟩
  cnt _ := rfl
  without _ h := h
  table _ h' hb := ⟨h', hb, h'.hCurIndex, h'.hPCurItem, rfl⟩

theorem moved_elm {h h' : HashTable υ β} (hb : (d.dAElm ind1).ePHash = some h) (hm : h.Moved h') :
    d.Moved { d with
      dAElm := Function.update d.dAElm ind1 { d.dAElm ind1 with ePHash := some h' } } where
  size := rfl
  prim2 := rfl
  hash := ⟨d.dHash.hCurIndex, d.dHash.hPCurItem, rfl⟩
  cnt b := by
    simp only [Function.update_apply]
    split_ifs with hb'
    · rw [hb']
    · rfl
  without b hn := by
    simp only [Function.update_apply] at hn
    split_ifs at hn
    exact hn
  table b t ht := by
    simp only [Function.update_apply] at ht
    split_ifs at ht with hb'
    · cases ht
      exact ⟨h, hb' ▸ hb, hm⟩
    · exact ⟨t, ht, t.hCurIndex, t.hPCurItem, rfl⟩

/-- What is found is found in the table, or else in the list. -/
structure Looked (d : DHash υ β) (ind1 : ℕ) (key : HashKey υ)
    (f : HashTable υ β → Option (HashItem υ β) × HashTable υ β)
    (r : Option (HashItem υ β) × DHash υ β) : Prop where
  moved : d.Moved r.2
  cur : r.2.dHash.hCurIndex = d.dHash.hCurIndex
  table : (r.2.dAElm ind1).ePHash = (d.dAElm ind1).ePHash.map fun h => (f h).2
  found : r.1 = ((d.dAElm ind1).ePHash.bind fun h => (f h).1).or
    ((d.dHash.hHeads ind1).find? fun i => d.dHash.hKind.equal i key)
  inTable : ∀ i, (d.dAElm ind1).ePHash.bind (fun h => (f h).1) = some i → r.2.dHash.hPCurItem = 0
  inList : ∀ i, (d.dAElm ind1).ePHash.bind (fun h => (f h).1) = none → r.1 = some i →
    r.2.dHash.hPCurItem = i.iAddr

theorem look_looked (hf : ∀ h : HashTable υ β, h.Moved (f h).2) : Looked d ind1 key f (d.look ind1 key f) := by
  unfold look
  cases ht : (d.dAElm ind1).ePHash with
  | none =>
      simp only
      cases hl : (d.dHash.hHeads ind1).find? fun i => d.dHash.hKind.equal i key with
      | none =>
          exact ⟨moved_hash _ _, rfl, by rw [ht]; rfl, by rw [ht, hl]; rfl, by simp [ht], by simp⟩
      | some i =>
          refine ⟨moved_hash _ _, rfl, by simp [ht], by rw [ht, hl]; rfl, by simp [ht], ?_⟩
          intro j _ hj
          cases hj
          rfl
  | some h =>
      simp only
      have hm : d.Moved { d with
          dHash := { d.dHash with hPCurItem := 0 }
          dAElm := Function.update d.dAElm ind1 { d.dAElm ind1 with ePHash := some (f h).2 } } :=
        (moved_elm ht (hf h)).trans (moved_hash _ 0)
      cases hg : (f h).1 with
      | some i =>
          refine ⟨hm, rfl, ?_, by rw [ht, Option.bind_some, hg]; rfl, fun _ _ => rfl, ?_⟩
          · simp [ht]
          · intro j hj
            rw [ht, Option.bind_some, hg] at hj
            cases hj
      | none =>
          simp only
          cases hl : (d.dHash.hHeads ind1).find? fun i => d.dHash.hKind.equal i key with
          | none =>
              refine ⟨hm, rfl, by simp [ht], by rw [ht, Option.bind_some, hg, hl]; rfl, ?_, by simp⟩
              exact fun _ _ => rfl
          | some i =>
              refine ⟨hm.trans (moved_hash _ _), rfl, by simp [ht],
                by rw [ht, Option.bind_some, hg, hl]; rfl, ?_, ?_⟩
              · intro j hj
                rw [ht, Option.bind_some, hg] at hj
                cases hj
              · intro j _ hj
                cases hj
                rfl

theorem nextItem_looked (key : HashKey υ) (hcur : d.dHash.hCurIndex = ind1)
    (hlt : ind1 < d.dHash.hN) :
    Looked d ind1 key (·.nextItem key) (d.nextItem key) := by
  unfold nextItem
  rw [if_neg (by omega), hcur, Int.toNat_natCast]
  exact look_looked fun _ => HashTable.nextItem_moved

theorem getItem_looked (d : DHash υ β) (key : HashKey υ) : Looked { d with dHash := { d.dHash with hCurIndex := d.index key } }
    (d.index key) key (·.getItem key) (d.getItem key) :=
  look_looked fun _ => HashTable.getItem_moved

end DHash

section Found
variable {h : HashTable υ β} {x : HashItem υ β} {key : HashKey υ}

theorem HashTable.nextItem_mem (hx : (h.nextItem key).1 = some x) : ∃ i, x ∈ h.hHeads i := by
  unfold nextItem at hx
  split_ifs at hx
  refine ⟨h.hCurIndex.toNat, ?_⟩
  split at hx
  · next y hy =>
      cases hx
      have hmem := List.mem_of_mem_tail (List.mem_of_find?_eq_some hy)
      exact (List.dropWhile_sublist _).mem hmem
  · cases hx

theorem HashTable.getItem_mem (hx : (h.getItem key).1 = some x) :
    x ∈ h.hHeads (h.hKind.index h.hN key) ∧ h.hKind.equal x key = true := by
  unfold getItem at hx
  simp only at hx
  split at hx
  · next y hy =>
      cases hx
      have hequal := List.find?_some hy
      exact ⟨List.mem_of_find?_eq_some hy, hequal⟩
  · cases hx

end Found

/-! ### What is kept -/

namespace DHashed
variable {first second log : List (HashItem υ β)} {s t : DHashed υ β} {d d' : DHash υ β}
  {key : HashKey υ} {failed fuel ind1 : ℕ} {x : HashItem υ β} {h : HashTable υ β}

/-- The items are those of the lists and those of the tables. -/
structure Kept (first second : List (HashItem υ β)) (s : DHashed υ β) : Prop where
  prim2 : 0 < s.hash.dPrimary2
  perm : s.log.Perm (first ++ second)
  list : (⟨s.hash.dHash, first⟩ : Hashed υ β).Kept
  table : ∀ b h, (s.hash.dAElm b).ePHash = some h → h.hKind = s.hash.dHash.hKind ∧
    (⟨h, second.filter fun x => s.hash.index x.iPKey = b⟩ : Hashed υ β).Kept
  without : ∀ b, (s.hash.dAElm b).ePHash = none →
    (second.filter fun x => s.hash.index x.iPKey = b) = []
  addrs : (s.log.map (·.iAddr)).Nodup
  addr : ∀ x ∈ s.log, x.iAddr ≠ 0
  value : ∀ x ∈ s.log, x.iPValue ≠ none
  cnt : ∃ fails : ℕ → ℕ,
    (∀ b, (s.hash.dAElm b).eCnt =
      int32 (s.log.countP (fun x => s.hash.index x.iPKey = b) + fails b)) ∧
    ((List.range s.hash.dHash.hN).map fails).sum = s.failed

theorem Kept.moved (hs : Kept first second ⟨d, log, failed⟩) (hm : d.Moved d') :
    Kept first second ⟨d', log, failed⟩ := by
  have hindex : ∀ key, d'.index key = d.index key := by
    intro key
    unfold DHash.index
    rw [hm.kind, hm.hN]
  constructor
  · exact hm.prim2 ▸ hs.prim2
  · exact hs.perm
  · exact hs.list.moved hm.hash
  · intro b h' hb
    obtain ⟨h, hh, c, p, hh'⟩ := hm.table b h' hb
    obtain ⟨hkind, hkept⟩ := hs.table b h hh
    simp only [hindex]
    refine ⟨?_, hkept.moved ⟨c, p, hh'⟩⟩
    rw [hm.kind, hh']
    exact hkind
  · intro b hb
    simp only [hindex]
    exact hs.without b (hm.without b hb)
  · exact hs.addrs
  · exact hs.addr
  · exact hs.value
  · obtain ⟨fails, hcnt, hsum⟩ := hs.cnt
    refine ⟨fails, ?_, ?_⟩
    · intro b
      simp only [hindex]
      rw [hm.cnt]
      exact hcnt b
    · rw [hm.hN]
      exact hsum

theorem Kept.mem_list (hs : Kept first second s) {b : ℕ} (hx : x ∈ s.hash.dHash.hHeads b) :
    x ∈ first := (hs.list.spread.mem.mp hx).1

theorem Kept.mem_table (hs : Kept first second s) {b i : ℕ}
    (hh : (s.hash.dAElm b).ePHash = some h) (hx : x ∈ h.hHeads i) :
    x ∈ second ∧ s.hash.index x.iPKey = b := by
  have hmem := ((hs.table b h hh).2.spread.mem.mp hx).1
  rw [List.mem_filter, decide_eq_true_eq] at hmem
  exact hmem

theorem Kept.mem_log (hs : Kept first second s) : x ∈ s.log ↔ x ∈ first ∨ x ∈ second := by
  rw [hs.perm.mem_iff, List.mem_append]

theorem Kept.u64 (hs : Kept first second s) (hx : x ∈ s.log) (hu : s.hash.dHash.hKind = .u64) :
    x.iU64 = x.iPKey.u64 := by
  rcases hs.mem_log.mp hx with hx | hx
  · exact hs.list.u64 x hx hu
  · have hmem : x ∈ second.filter fun y => s.hash.index y.iPKey = s.hash.index x.iPKey :=
      List.mem_filter.mpr ⟨hx, decide_eq_true rfl⟩
    cases hh : (s.hash.dAElm (s.hash.index x.iPKey)).ePHash with
    | none =>
        rw [hs.without _ hh] at hmem
        cases hmem
    | some h =>
        obtain ⟨hkind, hkept⟩ := hs.table _ h hh
        exact hkept.u64 x hmem (hkind.trans hu)

/-- Items with equal keys are of one bucket. -/
theorem Kept.code (hs : Kept first second s) (hx : x ∈ s.log)
    (heq : s.hash.dHash.hKind.equal x key = true) : s.hash.index x.iPKey = s.hash.index key :=
  HashKind.index_eq_of_equal hs.list.agrees (hs.u64 hx) heq

theorem Kept.index_lt (hs : Kept first second s) (key : HashKey υ) :
    s.hash.index key < s.hash.dHash.hN := HashKind.index_lt _ hs.list.pos key

/-! ### Going through the items -/

/-- What a next finds is an item. -/
theorem Kept.next_mem (hs : Kept first second ⟨d, log, failed⟩)
    (hcur : d.dHash.hCurIndex = ind1) (hlt : ind1 < d.dHash.hN)
    (hx : (d.nextItem key).1 = some x) : x ∈ log := by
  rw [(DHash.nextItem_looked key hcur hlt).found] at hx
  rcases Option.or_eq_some_iff.mp hx with hx | ⟨-, hx⟩
  · obtain ⟨h, hh, hx⟩ := Option.bind_eq_some_iff.mp hx
    obtain ⟨i, hi⟩ := HashTable.nextItem_mem hx
    exact hs.mem_log.mpr (.inr (hs.mem_table hh hi).1)
  · exact hs.mem_log.mpr (.inl (hs.mem_list (List.mem_of_find?_eq_some hx)))

/-- Where the list has the key there is no end. -/
theorem Kept.nexts_none (hs : Kept first second ⟨d, log, failed⟩)
    (hcur : d.dHash.hCurIndex = ind1) (hlt : ind1 < d.dHash.hN)
    (hx : ((d.dHash.hHeads ind1).find? fun i => d.dHash.hKind.equal i key) = some x) :
    DHash.nexts fuel d key = none := by
  induction fuel generalizing d with
  | zero => rfl
  | succ fuel ih =>
      have hlook := DHash.nextItem_looked key hcur hlt
      obtain ⟨y, hy⟩ : ∃ y, (d.nextItem key).1 = some y := by
        rw [hlook.found, hx]
        cases (d.dAElm ind1).ePHash.bind fun h => (h.nextItem key).1 with
        | none => exact ⟨x, rfl⟩
        | some y => exact ⟨y, rfl⟩
      obtain ⟨v, hv⟩ := Option.ne_none_iff_exists'.mp (hs.value y (hs.next_mem hcur hlt hy))
      have hnext : d.next key = (some v, (d.nextItem key).2) := by
        unfold DHash.next
        simp only [hy, Option.bind_some, hv]
      have hrest := ih (d := (d.nextItem key).2) (hs.moved hlook.moved) (hlook.cur.trans hcur)
        (by rw [hlook.moved.hN]; exact hlt)
        (by rw [hlook.moved.kind, hlook.moved.hHeads]; exact hx)
      unfold DHash.nexts
      simp only [hnext, hrest, Option.map_none]

/-- Where the list does not have the key, what follows is what follows in the table. -/
theorem nexts_table (hcur : d.dHash.hCurIndex = ind1) (hlt : ind1 < d.dHash.hN)
    (hx : ((d.dHash.hHeads ind1).find? fun i => d.dHash.hKind.equal i key) = none)
    (hh : (d.dAElm ind1).ePHash = some h) : DHash.nexts fuel d key = h.nexts fuel key := by
  induction fuel generalizing d h with
  | zero => rfl
  | succ fuel ih =>
      have hlook := DHash.nextItem_looked key hcur hlt
      have hfound : (d.nextItem key).1 = (h.nextItem key).1 := by
        rw [hlook.found, hx, hh, Option.bind_some, Option.or_none]
      have hrest := ih (d := (d.nextItem key).2) (h := (h.nextItem key).2) (hlook.cur.trans hcur)
        (by rw [hlook.moved.hN]; exact hlt)
        (by rw [hlook.moved.kind, hlook.moved.hHeads]; exact hx) (by rw [hlook.table, hh]; rfl)
      unfold DHash.nexts HashTable.nexts DHash.next HashTable.next
      simp only [hfound]
      cases (h.nextItem key).1.bind (·.iPValue) with
      | none => rfl
      | some v => simp only [hrest]

/-- A get looks in the table of the bucket, and then in the list. -/
theorem get_eq (d : DHash υ β) (key : HashKey υ) : (d.getItem key).1 =
    ((d.dAElm (d.index key)).ePHash.bind fun h => (h.getItem key).1).or
      ((d.dHash.hHeads (d.index key)).find? fun i => d.dHash.hKind.equal i key) :=
  (DHash.getItem_looked d key).found

theorem getItem_moved (d : DHash υ β) (key : HashKey υ) : d.Moved (d.getItem key).2 :=
  (DHash.moved_hash _ d.dHash.hPCurItem).trans (DHash.getItem_looked d key).moved

theorem Kept.get_mem (hs : Kept first second s) (hx : (s.hash.getItem key).1 = some x) :
    x ∈ s.log ∧ s.hash.dHash.hKind.equal x key = true := by
  rw [get_eq] at hx
  rcases Option.or_eq_some_iff.mp hx with hx | ⟨-, hx⟩
  · obtain ⟨h, hh, hx⟩ := Option.bind_eq_some_iff.mp hx
    obtain ⟨hmem, hequal⟩ := HashTable.getItem_mem hx
    rw [(hs.table _ h hh).1] at hequal
    exact ⟨hs.mem_log.mpr (.inr (hs.mem_table hh hmem).1), hequal⟩
  · have hequal := List.find?_some hx
    exact ⟨hs.mem_log.mpr (.inl (hs.mem_list (List.mem_of_find?_eq_some hx))), hequal⟩

theorem inFirst_iff : s.hash.InFirst key ↔
    ((s.hash.dHash.hHeads (s.hash.index key)).find? fun i => s.hash.dHash.hKind.equal i key) ≠ none := by
  rw [Option.ne_none_iff_exists', ← Option.isSome_iff_exists, List.find?_isSome]
  rfl

theorem Kept.enumerate_none (hs : Kept first second s) (hin : s.hash.InFirst key) :
    s.hash.enumerate fuel key = none := by
  obtain ⟨x, hx⟩ := Option.ne_none_iff_exists'.mp (inFirst_iff.mp hin)
  obtain ⟨y, hy⟩ : ∃ y, (s.hash.getItem key).1 = some y := by
    rw [get_eq, hx]
    cases (s.hash.dAElm (s.hash.index key)).ePHash.bind fun h => (h.getItem key).1 with
    | none => exact ⟨x, rfl⟩
    | some y => exact ⟨y, rfl⟩
  obtain ⟨v, hv⟩ := Option.ne_none_iff_exists'.mp (hs.value y (hs.get_mem hy).1)
  have hmoved := getItem_moved s.hash key
  have hkept : Kept first second ⟨(s.hash.getItem key).2, s.log, s.failed⟩ :=
    Kept.moved (d := s.hash) hs hmoved
  have hrest : DHash.nexts fuel (s.hash.getItem key).2 key = none :=
    hkept.nexts_none (DHash.getItem_looked s.hash key).cur
      (by rw [hmoved.hN]; exact hs.index_lt key) (by rw [hmoved.kind, hmoved.hHeads]; exact hx)
  have hget : s.hash.get key = (some v, (s.hash.getItem key).2) := by
    unfold DHash.get
    simp only [hy, Option.bind_some, hv]
  unfold DHash.enumerate
  simp only [hget, hrest, Option.map_none]

/-- The values of a bucket under a key are those of all items. -/
theorem Kept.values_perm (hs : Kept first second s) (hin : ¬ s.hash.InFirst key) :
    ((second.filter fun x => s.hash.index x.iPKey = s.hash.index key).filter
      fun i => s.hash.dHash.hKind.equal i key).Perm
    (s.log.filter fun i => s.hash.dHash.hKind.equal i key) := by
  have hfirst : (first.filter fun i => s.hash.dHash.hKind.equal i key) = [] := by
    rw [List.filter_eq_nil_iff]
    intro x hx hequal
    have hcode := hs.code (hs.mem_log.mpr (.inl hx)) hequal
    exact hin ⟨x, hs.list.spread.mem.mpr ⟨hx, hcode⟩, hequal⟩
  have hsecond : ((second.filter fun x => s.hash.index x.iPKey = s.hash.index key).filter
      fun i => s.hash.dHash.hKind.equal i key) =
      second.filter fun i => s.hash.dHash.hKind.equal i key := by
    rw [List.filter_filter]
    apply List.filter_congr
    intro x hx
    cases hequal : s.hash.dHash.hKind.equal x key with
    | false => rfl
    | true => simp [hs.code (hs.mem_log.mpr (.inr hx)) hequal]
  have hperm := hs.perm.filter fun i => s.hash.dHash.hKind.equal i key
  rw [List.filter_append, hfirst, List.nil_append] at hperm
  rw [hsecond]
  exact hperm.symm

/-- Where the list does not have the key, the items of the table are gone through. -/
theorem Kept.enumerate_some (hs : Kept first second s) (hin : ¬ s.hash.InFirst key) :
    ∃ fuel l, s.hash.enumerate fuel key = some l ∧ (l.map some).Perm (s.values key) := by
  have hx : ((s.hash.dHash.hHeads (s.hash.index key)).find?
      fun i => s.hash.dHash.hKind.equal i key) = none := not_not.mp (inFirst_iff.not.mp hin)
  have hperm := hs.values_perm hin
  cases hh : (s.hash.dAElm (s.hash.index key)).ePHash with
  | none =>
      have hget : (s.hash.get key).1 = none := by
        unfold DHash.get
        simp only
        rw [get_eq, hh, hx]
        rfl
      refine ⟨0, [], ?_, ?_⟩
      · unfold DHash.enumerate
        generalize s.hash.get key = r at hget
        obtain ⟨v, d⟩ := r
        cases hget
        rfl
      · rw [hs.without _ hh, List.filter_nil, List.nil_perm] at hperm
        unfold values
        rw [hperm]
        rfl
  | some h =>
      obtain ⟨hkind, hkept⟩ := hs.table _ h hh
      obtain ⟨fuel, l, hl, hmap⟩ := hkept.enumerate
        (fun x hx => hs.value x (hs.mem_log.mpr (.inr (List.mem_filter.mp hx).1))) key
      have hmoved := getItem_moved s.hash key
      have hlook := DHash.getItem_looked s.hash key
      refine ⟨fuel, l, ?_, ?_⟩
      · have hfound : (s.hash.getItem key).1 = (h.getItem key).1 := by
          rw [get_eq, hx, hh, Option.bind_some, Option.or_none]
        have hnexts : DHash.nexts fuel (s.hash.getItem key).2 key =
            (h.getItem key).2.nexts fuel key :=
          nexts_table hlook.cur (by rw [hmoved.hN]; exact hs.index_lt key)
            (by rw [hmoved.kind, hmoved.hHeads]; exact hx)
            (by rw [hlook.table]; simp only; rw [hh]; rfl)
        rw [← hl]
        unfold DHash.enumerate HashTable.enumerate DHash.get HashTable.get
        simp only [hfound]
        cases (h.getItem key).1.bind (·.iPValue) with
        | none => rfl
        | some v => simp only [hnexts]
      · rw [hmap]
        unfold Hashed.values values
        rw [hkind]
        exact hperm.map _

/-! ### What a call keeps -/

/-- The table a put to a bucket goes to. -/
theorem Kept.getTable (hs : Kept first second s) (b : ℕ) :
    ((s.hash.dAElm b).ePHash.getD (.init s.hash.dPrimary2 s.hash.dHash.hKind)).hKind =
        s.hash.dHash.hKind ∧
      (⟨(s.hash.dAElm b).ePHash.getD (.init s.hash.dPrimary2 s.hash.dHash.hKind),
        second.filter fun x => s.hash.index x.iPKey = b⟩ : Hashed υ β).Kept := by
  cases hh : (s.hash.dAElm b).ePHash with
  | some h => exact hs.table b h hh
  | none =>
      refine ⟨rfl, ?_⟩
      rw [hs.without b hh]
      exact Hashed.init_kept hs.prim2 hs.list.agrees

/-- An item is put into a table, if there is memory for it. -/
theorem put_table {l : List (HashItem υ β)} {p : Option ℕ} (key : HashKey υ) (v : Option β)
    (hk : (⟨h, l⟩ : Hashed υ β).Kept) (hp : ∀ q, p = some q → q ∉ l.map (·.iAddr)) :
    (h.put p key v).2.hKind = h.hKind ∧ (h.put p key v).2.hN = h.hN ∧
      (⟨(h.put p key v).2, l ++ p.toList.map fun q => h.alloc q key v⟩ : Hashed υ β).Kept := by
  cases p with
  | none =>
      refine ⟨rfl, rfl, ?_⟩
      rw [Option.toList_none, List.map_nil, List.append_nil]
      exact hk
  | some p =>
      refine ⟨rfl, rfl, Hashed.step_kept ⟨h, l⟩ (.put (some p) key v) _ hk ?_⟩
      exact if_neg (hp p rfl)

/-- The counts of the buckets after one of them is changed. -/
theorem cnt_update {elm : ℕ → DHashElm υ β} {c : ℕ → ℤ} {e : DHashElm υ β} {δ : ℤ}
    (hc : ∀ b, (elm b).eCnt = int32 (c b)) (he : e.eCnt = int32 ((elm ind1).eCnt + δ)) (b : ℕ) :
    (Function.update elm ind1 e b).eCnt = int32 (c b + if b = ind1 then δ else 0) := by
  rw [Function.update_apply]
  split_ifs with hb
  · rw [he, hc, int32_add, hb]
  · rw [hc, Int.add_zero]

theorem put_first {p : Option ℕ} {v : β}
    (hlt : (d.dAElm (d.index key)).eCnt < d.dPrimary1Size) :
    (d.put p key v).2 = { d with
      dHash := { (d.dHash.put p key (some v)).2 with
        hCount := int32 ((d.dHash.put p key (some v)).2.hCount + 1) }
      dAElm := Function.update d.dAElm (d.index key)
        { d.dAElm (d.index key) with eCnt := int32 ((d.dAElm (d.index key)).eCnt + 1) } } := by
  unfold DHash.put
  simp only [if_pos hlt]

theorem put_second {p : Option ℕ} {v : β}
    (hlt : ¬ (d.dAElm (d.index key)).eCnt < d.dPrimary1Size) :
    (d.put p key v).2 = { d with
      dHash := { d.dHash with hCount := int32 (d.dHash.hCount + 1) }
      dAElm := Function.update d.dAElm (d.index key)
        ⟨int32 ((d.dAElm (d.index key)).eCnt + 1), some (((d.dAElm (d.index key)).ePHash.getD
          (.init d.dPrimary2 d.dHash.hKind)).put p key (some v)).2⟩ } := by
  unfold DHash.put
  simp only [if_neg hlt]

/-- What a put adds to the log. -/
def added (d : DHash υ β) (p : Option ℕ) (key : HashKey υ) (v : β) : List (HashItem υ β) :=
  p.toList.map fun q => d.dHash.alloc q key (some v)

section Put
variable {p : Option ℕ} {v : β}

theorem mem_added (hx : x ∈ added d p key v) :
    x.iPKey = key ∧ x.iPValue = some v ∧ p = some x.iAddr := by
  obtain ⟨q, hq, rfl⟩ := List.mem_map.mp hx
  exact ⟨rfl, rfl, Option.mem_toList.mp hq⟩

theorem filter_added (b : ℕ) : (added d p key v).filter (fun x => d.index x.iPKey = b) =
    if d.index key = b then added d p key v else [] := by
  split_ifs with hb
  · apply List.filter_eq_self.mpr
    intro x hx
    rw [(mem_added hx).1]
    exact decide_eq_true hb
  · rw [List.filter_eq_nil_iff]
    intro x hx
    rw [(mem_added hx).1]
    simpa using hb

/-- An item or a failure more is counted in the bucket. -/
theorem Kept.cnt_put (hs : Kept first second s) (p : Option ℕ) (key : HashKey υ) (v : β)
    {e : DHashElm υ β}
    (he : e.eCnt = int32 ((s.hash.dAElm (s.hash.index key)).eCnt + 1)) :
    ∃ fails : ℕ → ℕ, (∀ b, (Function.update s.hash.dAElm (s.hash.index key) e b).eCnt =
        int32 ((s.log ++ added s.hash p key v).countP (fun x => s.hash.index x.iPKey = b) + fails b)) ∧
      ((List.range s.hash.dHash.hN).map fails).sum = s.failed + if p = none then 1 else 0 := by
  obtain ⟨fails, hcnt, hsum⟩ := hs.cnt
  refine ⟨fun b => fails b + if p = none then (if s.hash.index key = b then 1 else 0) else 0, ?_, ?_⟩
  · intro b
    rw [cnt_update hcnt he b, List.countP_append, List.countP_eq_length_filter (l := added _ _ _ _),
      filter_added]
    congr 1
    cases p with
    | none =>
        unfold added
        by_cases hb : b = s.hash.index key
        · simp [hb, Int.add_assoc]
        · simp [hb, Ne.symm hb]
    | some q =>
        unfold added
        by_cases hb : b = s.hash.index key
        · simp only [hb, if_true, Option.toList_some, List.map_singleton, List.length_singleton,
            reduceCtorEq, if_false]
          push_cast
          omega
        · simp [hb, Ne.symm hb]
  · rw [List.sum_map_add, hsum]
    congr 1
    split_ifs
    · exact sum_range_indicator (hs.index_lt key)
    · simp

theorem Kept.addrs_put (hs : Kept first second s) (key : HashKey υ) (v : β)
    (hp : ∀ q, p = some q → q ∉ s.log.map (·.iAddr)) :
    ((s.log ++ added s.hash p key v).map (·.iAddr)).Nodup := by
  rw [List.map_append, List.nodup_append]
  refine ⟨hs.addrs, ?_, ?_⟩
  · cases p with
    | none => exact List.nodup_nil
    | some q => exact List.nodup_singleton q
  · intro a ha b hb hab
    obtain ⟨x, hx, rfl⟩ := List.mem_map.mp hb
    exact hp _ (mem_added hx).2.2 (hab ▸ ha)

/-- What is not in the log is in none of its parts. -/
theorem not_mem_part {l : List (HashItem υ β)} (hl : ∀ x ∈ l, x ∈ s.log) {q : ℕ} (hq : q ∉ s.log.map (·.iAddr)) : q ∉ l.map (·.iAddr) := by
  intro hmem
  obtain ⟨x, hx, rfl⟩ := List.mem_map.mp hmem
  exact hq (List.mem_map_of_mem (hl x hx))

/-- A put adds an item to the list or the table of a bucket, or a failure. -/
theorem put_kept (hs : Kept first second s) (p : Option ℕ) (key : HashKey υ) (v : β)
    (hp : ∀ q, p = some q → q ≠ 0 ∧ q ∉ s.log.map (·.iAddr)) :
    ∃ first second, Kept first second ⟨(s.hash.put p key v).2, s.log ++ added s.hash p key v,
      s.failed + if p = none then 1 else 0⟩ := by
  have haddrs := hs.addrs_put key v fun q hq => (hp q hq).2
  have haddr : ∀ x ∈ s.log ++ added s.hash p key v, x.iAddr ≠ 0 := by
    intro x hx
    rcases List.mem_append.mp hx with hx | hx
    · exact hs.addr x hx
    · exact (hp _ (mem_added hx).2.2).1
  have hvalue : ∀ x ∈ s.log ++ added s.hash p key v, x.iPValue ≠ none := by
    intro x hx
    rcases List.mem_append.mp hx with hx | hx
    · exact hs.value x hx
    · rw [(mem_added hx).2.1]
      exact Option.some_ne_none v
  by_cases hlt : (s.hash.dAElm (s.hash.index key)).eCnt < s.hash.dPrimary1Size
  · rw [put_first hlt]
    obtain ⟨hkind, hN, hlist⟩ := put_table key (some v) hs.list fun q hq =>
      not_mem_part (fun x hx => hs.mem_log.mpr (.inl hx)) (hp q hq).2
    have hperm : (s.log ++ added s.hash p key v).Perm ((first ++ added s.hash p key v) ++ second) := by
      refine (hs.perm.append_right _).trans ?_
      rw [List.append_assoc, List.append_assoc]
      exact List.perm_append_comm.append_left first
    refine ⟨first ++ added s.hash p key v, second, ?_⟩
    constructor
    · exact hs.prim2
    · exact hperm
    · exact hlist.recount
    · intro b h hb
      simp only [DHash.index, hkind, hN]
      apply hs.table
      simp only [Function.update_apply] at hb
      split_ifs at hb with hb'
      · exact hb' ▸ hb
      · exact hb
    · intro b hb
      simp only [DHash.index, hkind, hN]
      apply hs.without
      simp only [Function.update_apply] at hb
      split_ifs at hb with hb'
      · exact hb' ▸ hb
      · exact hb
    · exact haddrs
    · exact haddr
    · exact hvalue
    · obtain ⟨fails, hcnt, hsum⟩ := hs.cnt_put p key v (e :=
        { s.hash.dAElm (s.hash.index key) with
          eCnt := int32 ((s.hash.dAElm (s.hash.index key)).eCnt + 1) }) rfl
      simp only [DHash.index, hkind, hN]
      exact ⟨fails, hcnt, hsum⟩
  · rw [put_second hlt]
    obtain ⟨hkind, htable⟩ := hs.getTable (s.hash.index key)
    generalize hget : (s.hash.dAElm (s.hash.index key)).ePHash.getD
      (.init s.hash.dPrimary2 s.hash.dHash.hKind) = h₂ at hkind htable
    obtain ⟨hkind', -, htable'⟩ := put_table key (some v) htable fun q hq =>
      not_mem_part (fun x hx => hs.mem_log.mpr (.inr (List.mem_filter.mp hx).1)) (hp q hq).2
    have hadded : (p.toList.map fun q => h₂.alloc q key (some v)) = added s.hash p key v := by
      unfold added HashTable.alloc
      rw [hkind]
    refine ⟨first, second ++ added s.hash p key v, ?_⟩
    constructor
    · exact hs.prim2
    · rw [← List.append_assoc]
      exact hs.perm.append_right _
    · exact hs.list.recount
    · intro b h hb
      change h.hKind = s.hash.dHash.hKind ∧ (⟨h, (second ++ added s.hash p key v).filter fun x =>
        s.hash.index x.iPKey = b⟩ : Hashed υ β).Kept
      rw [List.filter_append, filter_added]
      simp only [Function.update_apply] at hb
      by_cases hb' : b = s.hash.index key
      · rw [if_pos hb'] at hb
        rw [if_pos hb'.symm, hb', ← hadded]
        cases hb
        exact ⟨hkind'.trans hkind, htable'⟩
      · rw [if_neg hb'] at hb
        rw [if_neg (Ne.symm hb'), List.append_nil]
        exact hs.table b h hb
    · intro b hb
      change ((second ++ added s.hash p key v).filter fun x => s.hash.index x.iPKey = b) = []
      rw [List.filter_append, filter_added]
      simp only [Function.update_apply] at hb
      by_cases hb' : b = s.hash.index key
      · rw [if_pos hb'] at hb
        cases hb
      · rw [if_neg hb'] at hb
        rw [if_neg (Ne.symm hb'), List.append_nil]
        exact hs.without b hb
    · exact haddrs
    · exact haddr
    · exact hvalue
    · exact hs.cnt_put p key v rfl

end Put

section Remove
variable (hs : Kept first second s) (hx : x ∈ s.log)
include hs hx

/-- A part of the log that does not have the item stays. -/
theorem Kept.filter_part {l : List (HashItem υ β)} (hl : ∀ y ∈ l, y ∈ s.log) (hxl : x ∉ l) :
    (l.filter fun y => y.iAddr ≠ x.iAddr) = l := by
  apply List.filter_eq_self.mpr
  intro y hy
  refine decide_eq_true ?_
  intro hyx
  exact hxl (List.inj_on_of_nodup_map hs.addrs (hl y hy) hx hyx ▸ hy)

omit hx in
theorem Kept.perm_remove : (s.log.filter fun y => y.iAddr ≠ x.iAddr).Perm
    ((first.filter fun y => y.iAddr ≠ x.iAddr) ++ second.filter fun y => y.iAddr ≠ x.iAddr) := by
  rw [← List.filter_append]
  exact hs.perm.filter _

/-- An item less is counted in the bucket. -/
theorem Kept.cnt_remove {e : DHashElm υ β}
    (he : e.eCnt = int32 ((s.hash.dAElm (s.hash.index x.iPKey)).eCnt - 1)) :
    ∃ fails : ℕ → ℕ, (∀ b, (Function.update s.hash.dAElm (s.hash.index x.iPKey) e b).eCnt =
        int32 ((s.log.filter fun y => y.iAddr ≠ x.iAddr).countP
          (fun x => s.hash.index x.iPKey = b) + fails b)) ∧
      ((List.range s.hash.dHash.hN).map fails).sum = s.failed := by
  obtain ⟨fails, hcnt, hsum⟩ := hs.cnt
  refine ⟨fails, ?_, hsum⟩
  intro b
  rw [cnt_update hcnt he b, (perm_cons_filter hs.addrs hx).countP_eq, List.countP_cons]
  congr 1
  by_cases hb : b = s.hash.index x.iPKey
  · simp only [hb, decide_true, if_true]
    push_cast
    omega
  · simp [hb, Ne.symm hb]

omit hx in
theorem Kept.disjoint : ¬ (x ∈ first ∧ x ∈ second) := by
  rintro ⟨hfirst, hsecond⟩
  have hn := hs.perm.nodup_iff.mp (List.Nodup.of_map _ hs.addrs)
  exact (List.nodup_append.mp hn).2.2 x hfirst x hsecond rfl

omit hx in
theorem remove_list (hx : x ∈ first) : Kept (first.filter fun y => y.iAddr ≠ x.iAddr) second
    ⟨{ s.hash with
      dHash := (s.hash.dHash.removeItem (some x.iAddr)).2
      dAElm := Function.update s.hash.dAElm (s.hash.index x.iPKey)
        { s.hash.dAElm (s.hash.index x.iPKey) with
          eCnt := int32 ((s.hash.dAElm (s.hash.index x.iPKey)).eCnt - 1) } },
      s.log.filter fun y => y.iAddr ≠ x.iAddr, s.failed⟩ := by
  have hlog := hs.mem_log.mpr (.inl hx)
  have hsecond := hs.filter_part hlog (fun y hy => hs.mem_log.mpr (.inr hy))
    fun h => hs.disjoint ⟨hx, h⟩
  have hperm := hs.perm_remove (x := x)
  rw [hsecond] at hperm
  constructor
  · exact hs.prim2
  · exact hperm
  · exact hs.list.filter
  · intro b h hb
    apply hs.table b
    simp only [Function.update_apply] at hb
    split_ifs at hb with hb'
    · exact hb' ▸ hb
    · exact hb
  · intro b hb
    apply hs.without b
    simp only [Function.update_apply] at hb
    split_ifs at hb with hb'
    · exact hb' ▸ hb
    · exact hb
  · exact hs.addrs.sublist (List.filter_sublist.map _)
  · exact fun y hy => hs.addr y (List.mem_filter.mp hy).1
  · exact fun y hy => hs.value y (List.mem_filter.mp hy).1
  · exact hs.cnt_remove hlog rfl

omit hx in
theorem remove_table (hx : x ∈ second)
    (hh : (s.hash.dAElm (s.hash.index x.iPKey)).ePHash = some h) :
    Kept first (second.filter fun y => y.iAddr ≠ x.iAddr)
      ⟨{ s.hash with
        dAElm := Function.update s.hash.dAElm (s.hash.index x.iPKey)
          ⟨int32 ((s.hash.dAElm (s.hash.index x.iPKey)).eCnt - 1),
            some (h.removeItem (some x.iAddr)).2⟩ },
        s.log.filter fun y => y.iAddr ≠ x.iAddr, s.failed⟩ := by
  have hlog := hs.mem_log.mpr (.inr hx)
  have hfirst := hs.filter_part hlog (fun y hy => hs.mem_log.mpr (.inl hy))
    fun h => hs.disjoint ⟨h, hx⟩
  have hperm := hs.perm_remove (x := x)
  rw [hfirst] at hperm
  have hcomm (b : ℕ) : ((second.filter fun y => y.iAddr ≠ x.iAddr).filter
      fun y => s.hash.index y.iPKey = b) =
      (second.filter fun y => s.hash.index y.iPKey = b).filter fun y => y.iAddr ≠ x.iAddr := by
    rw [List.filter_filter, List.filter_filter]
    apply List.filter_congr
    intro y _
    rw [Bool.and_comm]
  have hother (b : ℕ) (hb : b ≠ s.hash.index x.iPKey) :
      ((second.filter fun y => s.hash.index y.iPKey = b).filter fun y => y.iAddr ≠ x.iAddr) =
        second.filter fun y => s.hash.index y.iPKey = b := by
    apply hs.filter_part hlog
    · exact fun y hy => hs.mem_log.mpr (.inr (List.mem_filter.mp hy).1)
    · intro hmem
      exact hb (of_decide_eq_true (List.mem_filter.mp hmem).2).symm
  constructor
  · exact hs.prim2
  · exact hperm
  · exact hs.list
  · intro b h' hb
    change h'.hKind = s.hash.dHash.hKind ∧ (⟨h', (second.filter fun y => y.iAddr ≠ x.iAddr).filter
      fun y => s.hash.index y.iPKey = b⟩ : Hashed υ β).Kept
    rw [hcomm]
    simp only [Function.update_apply] at hb
    by_cases hb' : b = s.hash.index x.iPKey
    · rw [if_pos hb'] at hb
      cases hb
      obtain ⟨hkind, hkept⟩ := hs.table _ h hh
      rw [hb']
      exact ⟨hkind, hkept.filter⟩
    · rw [if_neg hb'] at hb
      rw [hother b hb']
      exact hs.table b h' hb
  · intro b hb
    change ((second.filter fun y => y.iAddr ≠ x.iAddr).filter fun y => s.hash.index y.iPKey = b) = []
    rw [hcomm]
    simp only [Function.update_apply] at hb
    by_cases hb' : b = s.hash.index x.iPKey
    · rw [if_pos hb'] at hb
      cases hb
    · rw [if_neg hb'] at hb
      rw [hs.without b hb]
      rfl
  · exact hs.addrs.sublist (List.filter_sublist.map _)
  · exact fun y hy => hs.addr y (List.mem_filter.mp hy).1
  · exact fun y hy => hs.value y (List.mem_filter.mp hy).1
  · exact hs.cnt_remove hlog rfl

end Remove

theorem remove_none (hx : (d.getItem key).1 = none) : (d.remove key).2 = (d.getItem key).2 := by
  unfold DHash.remove DHash.get
  simp only [hx, Option.bind_none]

section RemoveEq
variable {v : β} (hx : (d.getItem key).1 = some x) (hv : x.iPValue = some v)
  (hd : (d.getItem key).2 = d') (hcur : d'.dHash.hCurIndex.toNat = ind1)
include hx hv hd hcur

theorem remove_eq_list (hitem : d'.dHash.hPCurItem ≠ 0) : (d.remove key).2 = { d' with
    dHash := (d'.dHash.removeItem (some d'.dHash.hPCurItem)).2
    dAElm := Function.update d'.dAElm ind1
      { d'.dAElm ind1 with eCnt := int32 ((d'.dAElm ind1).eCnt - 1) } } := by
  unfold DHash.remove DHash.get
  simp only [hx, hd, Option.bind_some, hv, if_pos hitem, hcur]

theorem remove_eq_table (hitem : d'.dHash.hPCurItem = 0) (hh : (d'.dAElm ind1).ePHash = some h) :
    (d.remove key).2 = { d' with
      dAElm := Function.update d'.dAElm ind1 ⟨int32 ((d'.dAElm ind1).eCnt - 1),
        some (h.removeItem (some h.hPCurItem)).2⟩ } := by
  unfold DHash.remove DHash.get
  simp only [hx, hd, Option.bind_some, hv, if_neg (not_not.mpr hitem), hcur, hh]

end RemoveEq

theorem getItem_pCurItem (hx : (h.getItem key).1 = some x) :
    (h.getItem key).2.hPCurItem = x.iAddr := by
  unfold HashTable.getItem at hx ⊢
  simp only at hx ⊢
  split at hx
  · cases hx
    rfl
  · cases hx

/-- A remove takes the item that is found out of the list or the table of its bucket. -/
theorem remove_kept (hs : Kept first second s) (hx : (s.hash.getItem key).1 = some x) :
    ∃ first second, Kept first second
      ⟨(s.hash.remove key).2, s.log.filter fun y => y.iAddr ≠ x.iAddr, s.failed⟩ := by
  obtain ⟨hlog, hequal⟩ := hs.get_mem hx
  obtain ⟨v, hv⟩ := Option.ne_none_iff_exists'.mp (hs.value x hlog)
  have hmoved := getItem_moved s.hash key
  have hlook := DHash.getItem_looked s.hash key
  have hkept : Kept first second ⟨(s.hash.getItem key).2, s.log, s.failed⟩ :=
    Kept.moved (d := s.hash) hs hmoved
  have hcode : (s.hash.getItem key).2.index x.iPKey = s.hash.index key := by
    rw [← hs.code hlog hequal]
    unfold DHash.index
    rw [hmoved.kind, hmoved.hN]
  have hcur : (s.hash.getItem key).2.dHash.hCurIndex.toNat =
      (s.hash.getItem key).2.index x.iPKey := by
    rw [hlook.cur, Int.toNat_natCast, hcode]
  have hfound := get_eq s.hash key
  rw [hx] at hfound
  cases hh : (s.hash.dAElm (s.hash.index key)).ePHash.bind fun h => (h.getItem key).1 with
  | some y =>
      obtain ⟨h, hh', hy⟩ := Option.bind_eq_some_iff.mp hh
      rw [hh, Option.some_or] at hfound
      cases hfound
      have htable : ((s.hash.getItem key).2.dAElm ((s.hash.getItem key).2.index x.iPKey)).ePHash =
          some (h.getItem key).2 := by
        rw [hcode, hlook.table]
        simp only
        rw [hh']
        rfl
      rw [remove_eq_table hx hv rfl hcur (hlook.inTable x hh) htable, getItem_pCurItem hy]
      exact ⟨_, _, remove_table hkept (hs.mem_table hh' (HashTable.getItem_mem hy).1).1 htable⟩
  | none =>
      rw [hh, Option.none_or] at hfound
      have hitem := hlook.inList x hh hx
      rw [remove_eq_list hx hv rfl hcur (by rw [hitem]; exact hs.addr x hlog), hitem]
      exact ⟨_, _, remove_list hkept (hs.mem_list (List.mem_of_find?_eq_some hfound.symm))⟩

theorem step_kept (s : DHashed υ β) (op : DHashOp υ β) (t : DHashed υ β)
    (hs : ∃ first second, Kept first second s) (h : s.step op = .ok t) :
    ∃ first second, Kept first second t := by
  obtain ⟨first, second, hs⟩ := hs
  cases op with
  | put p key v =>
      cases p with
      | none =>
          cases h
          have hput := put_kept hs none key v (by simp)
          unfold added at hput
          simpa using hput
      | some p =>
          simp only [step] at h
          split_ifs at h with hp
          cases h
          have hput := put_kept hs (some p) key v (by
            intro q hq
            cases hq
            exact not_or.mp hp)
          exact hput
  | remove key =>
      cases h
      cases hx : (s.hash.getItem key).1 with
      | none =>
          rw [remove_none hx]
          exact ⟨first, second, Kept.moved (d := s.hash) hs (getItem_moved s.hash key)⟩
      | some x => exact remove_kept hs hx

theorem init_kept {prim1 prim2 : ℕ} {prim1Size : ℤ} {kind : HashKind υ} (h1 : 0 < prim1)
    (h2 : 0 < prim2) (hkind : kind.Agrees) :
    Kept [] [] (⟨.init prim1 prim1Size prim2 kind, [], 0⟩ : DHashed υ β) where
  prim2 := h2
  perm := List.Perm.nil
  list := Hashed.init_kept h1 hkind
  table := by
    intro b h hh
    cases hh
  without _ _ := rfl
  addrs := List.nodup_nil
  addr := by simp
  value := by simp
  cnt := by
    refine ⟨fun _ => 0, ?_, by simp⟩
    intro b
    change (0 : ℤ) = int32 0
    rfl

/-! ### The count -/

theorem foldl_int32 (l : List ℕ) (f : ℕ → ℕ) (n : ℤ) :
    l.foldl (fun total i => int32 (total + int32 (f i))) (int32 n) = int32 (n + (l.map f).sum) := by
  induction l generalizing n with
  | nil => rw [List.foldl_nil, List.map_nil, List.sum_nil, Int.natCast_zero, Int.add_zero]
  | cons i l ih =>
      rw [List.foldl_cons, int32_add, Int.add_comm n, int32_add, Int.add_comm (f i : ℤ), ih,
        List.map_cons, List.sum_cons, Int.natCast_add, Int.add_assoc]

/-- The count is that of the items and of the puts that failed, in an `int`. -/
theorem Kept.count (hs : Kept first second s) :
    s.hash.count = int32 (s.log.length + s.failed) := by
  obtain ⟨fails, hcnt, hsum⟩ := hs.cnt
  have hitems : ((List.range s.hash.dHash.hN).map fun b =>
      s.log.countP fun x => s.hash.index x.iPKey = b).sum = s.log.length := by
    have hspread : Spread (fun x => s.hash.index x.iPKey)
      (fun b => s.log.filter fun x => s.hash.index x.iPKey = b) s.log := fun _ => rfl
    rw [← hspread.length fun x _ => hs.index_lt x.iPKey, List.length_flatMap]
    simp only [List.countP_eq_length_filter]
  have hall : ((List.range s.hash.dHash.hN).map fun b =>
      (s.log.countP fun x => s.hash.index x.iPKey = b) + fails b).sum = s.log.length + s.failed := by
    rw [List.sum_map_add, hitems, hsum]
  unfold DHash.count
  simp only [hcnt, ← Int.natCast_add]
  have h0 : (0 : ℤ) = int32 0 := rfl
  conv_lhs => rw [h0]
  rw [foldl_int32, Int.zero_add, hall]

theorem int32_count_iff {n k : ℕ} : int32 (n + k) = n ↔ 2 ^ 32 ∣ k ∧ n < 2 ^ 31 := by
  obtain ⟨q, hq, hlo, hhi⟩ := int32_spec (n + k)
  rw [hq] at hlo hhi ⊢
  constructor
  · intro h
    refine ⟨⟨q.toNat, ?_⟩, by omega⟩
    omega
  · rintro ⟨⟨m, hm⟩, hn⟩
    omega

theorem reached_kept {prim1 prim2 : ℕ} {prim1Size : ℤ} {kind : HashKind υ} (h1 : 0 < prim1)
    (h2 : 0 < prim2) (hkind : kind.Agrees) {ops : List (DHashOp υ β)}
    (hrun : run step ⟨.init prim1 prim1Size prim2 kind, [], 0⟩ ops = .ok t) :
    ∃ first second, Kept first second t :=
  run_invariant (I := fun s => ∃ first second, Kept first second s)
    (fun s op t hs _ => step_kept s op t hs) ⟨[], [], init_kept h1 h2 hkind⟩ Along.trivial hrun

/-- In every state that is reached a key's values are gone through, each once, if and only if
no item of the list has the key, and the count is right if and only if no put failed and an
`int` counts the items. -/
theorem dHash_right_iff {prim1 prim2 : ℕ} {prim1Size : ℤ} {kind : HashKind υ} (h1 : 0 < prim1)
    (h2 : 0 < prim2) (hkind : kind.Agrees) {ops : List (DHashOp υ β)}
    (hrun : run step ⟨.init prim1 prim1Size prim2 kind, [], 0⟩ ops = .ok t) (key : HashKey υ) :
    t.Right key ↔ ¬ t.hash.InFirst key ∧ 2 ^ 32 ∣ t.failed ∧ t.log.length < 2 ^ 31 := by
  obtain ⟨first, second, hs⟩ := reached_kept h1 h2 hkind hrun
  have hcount : t.hash.count = t.log.length ↔ 2 ^ 32 ∣ t.failed ∧ t.log.length < 2 ^ 31 := by
    rw [hs.count]
    exact int32_count_iff
  rw [← hcount]
  constructor
  · intro h
    refine ⟨?_, h.count⟩
    intro hin
    obtain ⟨fuel, l, hl, -⟩ := h.all
    rw [hs.enumerate_none hin] at hl
    cases hl
  · rintro ⟨hin, hc⟩
    exact ⟨hc, hs.enumerate_some hin⟩

/-- Two keys fill the list, and the items of the third one are in the table. -/
def putOver : List (DHashOp Unit ℕ) :=
  [.put (some 16) ⟨0, 0, [48], ()⟩ 1, .put (some 32) ⟨0, 0, [50], ()⟩ 2,
    .put (some 48) ⟨0, 0, [52], ()⟩ 3, .put (some 64) ⟨0, 0, [52], ()⟩ 4]

theorem dHash_right_iff_putOver : ∃ t : DHashed Unit ℕ,
    run step ⟨.init 2 2 3 .str, [], 0⟩ putOver = .ok t ∧ t.Right ⟨0, 0, [52], ()⟩ := by
  have hkind : (HashKind.str : HashKind Unit).Agrees := trivial
  obtain ⟨t, ht⟩ : ∃ t : DHashed Unit ℕ, run step ⟨.init 2 2 3 .str, [], 0⟩ putOver = .ok t :=
    ⟨_, rfl⟩
  refine ⟨t, ht, (dHash_right_iff (by decide) (by decide) hkind ht _).mpr ?_⟩
  cases ht
  refine ⟨?_, by decide, by decide⟩
  rintro ⟨i, hi, hequal⟩
  revert i
  decide

/-- One item, which a next finds again and again. -/
theorem dHash_not_right : ¬ ∀ (prim1 prim2 : ℕ) (prim1Size : ℤ) (kind : HashKind Unit)
    (ops : List (DHashOp Unit ℕ)) (t : DHashed Unit ℕ) (key : HashKey Unit), 0 < prim1 → 0 < prim2 →
      kind.Agrees → run step ⟨.init prim1 prim1Size prim2 kind, [], 0⟩ ops = .ok t →
        t.Right key := by
  intro h
  have hkind : (HashKind.str : HashKind Unit).Agrees := trivial
  obtain ⟨t, ht⟩ : ∃ t : DHashed Unit ℕ, run step ⟨.init 2 2 3 .str, [], 0⟩
    [.put (some 16) ⟨0, 0, [48], ()⟩ 1] = .ok t := ⟨_, rfl⟩
  obtain ⟨first, second, hs⟩ := reached_kept (by decide) (by decide) hkind ht
  have hin : t.hash.InFirst ⟨0, 0, [48], ()⟩ := by
    cases ht
    exact ⟨⟨16, ⟨0, 0, [48], ()⟩, 0, some 1⟩, by decide, by decide⟩
  obtain ⟨fuel, l, hl, -⟩ := (h 2 3 2 .str _ t _ (by decide) (by decide) hkind ht).all
  rw [hs.enumerate_none hin] at hl
  cases hl

end DHashed

end PaxosSolutions.NWGadget
