import PaxosSolutions.NWGadget.DHash

/-!
# A table of two levels as a set of numbers

A `DHash_t` whose keys are `uint64_t` copies the number behind a key into its item. So what
`DHashGet` finds are the numbers that were put since the table was cleared.
-/
namespace PaxosSolutions.NWGadget
open Lib
variable {υ β : Type}

/-- `DHashClear` -/
def DHash.clear (d : DHash υ β) : DHash υ β :=
  { d with
    dHash := d.dHash.clear.2
    dAElm := fun i =>
      if i < d.dHash.hN then ⟨0, (d.dAElm i).ePHash.map fun h => h.clear.2⟩ else d.dAElm i }

/-- The numbers of a table, in the order they were put, and a bound on where its items are -/
structure DHash.Numbers (d : DHash υ β) (us : List UInt64) (heap : ℕ) : Prop where
  kind : d.dHash.hKind = .u64
  kept : ∃ log first second, DHashed.Kept first second ⟨d, log, 0⟩ ∧ log.map (·.iU64) = us ∧
    ∀ x ∈ log, x.iAddr < heap

variable {d d' : DHash υ β} {us : List UInt64} {heap heap' : ℕ} {key : HashKey υ} {v : β}

theorem DHash.Numbers.mono (h : d.Numbers us heap) (hle : heap ≤ heap') : d.Numbers us heap' := by
  obtain ⟨log, first, second, hkept, hus, hheap⟩ := h.kept
  exact ⟨h.kind, log, first, second, hkept, hus, fun x hx => Nat.lt_of_lt_of_le (hheap x hx) hle⟩

theorem DHash.numbers_init {prim1 prim2 : ℕ} {prim1Size : ℤ} (h1 : 0 < prim1) (h2 : 0 < prim2) :
    (DHash.init prim1 prim1Size prim2 .u64 : DHash υ β).Numbers [] heap where
  kind := rfl
  kept := ⟨[], [], [], DHashed.init_kept h1 h2 trivial, rfl, fun x hx => by cases hx⟩

/-- A put at an address that is not in use adds the number. -/
theorem DHash.Numbers.put (h : d.Numbers us heap) (key : HashKey υ) (v : β) (hheap : 0 < heap) :
    (d.put (some heap) key v).2.Numbers (us ++ [key.u64]) (heap + 1) := by
  obtain ⟨log, first, second, hkept, hus, hlt⟩ := h.kept
  have hfresh : ∀ q, some heap = some q → q ≠ 0 ∧ q ∉ log.map (·.iAddr) := by
    intro q hq
    cases hq
    refine ⟨by omega, ?_⟩
    intro hmem
    obtain ⟨x, hx, heq⟩ := List.mem_map.mp hmem
    have hbelow := hlt x hx
    omega
  obtain ⟨first', second', hkept'⟩ := DHashed.put_kept hkept (some heap) key v hfresh
  have hitem : DHashed.added d (some heap) key v = [d.dHash.alloc heap key (some v)] := rfl
  rw [hitem] at hkept'
  refine ⟨?_, log ++ [d.dHash.alloc heap key (some v)], first', second', hkept', ?_, ?_⟩
  · have hkind : (d.put (some heap) key v).2.dHash.hKind = d.dHash.hKind := by
      by_cases hfirst : (d.dAElm (d.index key)).eCnt < d.dPrimary1Size
      · rw [DHashed.put_first hfirst]
        rfl
      · rw [DHashed.put_second hfirst]
    exact hkind.trans h.kind
  · rw [List.map_append, hus, List.map_singleton]
    unfold HashTable.alloc
    rw [h.kind]
  · intro x hx
    rcases List.mem_append.mp hx with hx | hx
    · exact Nat.lt_succ_of_lt (hlt x hx)
    · rw [List.mem_singleton.mp hx]
      exact Nat.lt_succ_self heap

/-- An item with the key is found, be it in the list or in the table. -/
theorem DHashed.Kept.found {first second : List (HashItem υ β)} {s : DHashed υ β} {x : HashItem υ β}
    (hs : DHashed.Kept first second s) (key : HashKey υ) (hx : x ∈ s.log) (hkey : s.hash.dHash.hKind.equal x key = true) :
    ∃ y, (s.hash.getItem key).1 = some y := by
  have hcode := hs.code hx hkey
  rw [DHashed.get_eq]
  rcases hs.mem_log.mp hx with hx | hx
  · have hmem : x ∈ s.hash.dHash.hHeads (s.hash.index key) := hs.list.spread.mem.mpr ⟨hx, hcode⟩
    have hfind : ((s.hash.dHash.hHeads (s.hash.index key)).find?
        fun i => s.hash.dHash.hKind.equal i key).isSome = true := List.find?_isSome.mpr ⟨x, hmem, hkey⟩
    obtain ⟨y, hy⟩ := Option.isSome_iff_exists.mp hfind
    rw [hy]
    cases (s.hash.dAElm (s.hash.index key)).ePHash.bind fun h => (h.getItem key).1 with
    | none => exact ⟨y, rfl⟩
    | some z => exact ⟨z, rfl⟩
  · have hmem : x ∈ second.filter fun x => s.hash.index x.iPKey = s.hash.index key :=
      List.mem_filter.mpr ⟨hx, decide_eq_true hcode⟩
    cases hh : (s.hash.dAElm (s.hash.index key)).ePHash with
    | none =>
        rw [hs.without _ hh] at hmem
        cases hmem
    | some h =>
        obtain ⟨hkind, hkept⟩ := hs.table _ h hh
        have hfind : ((second.filter fun x => s.hash.index x.iPKey = s.hash.index key).find?
            fun i => h.hKind.equal i key).isSome = true :=
          List.find?_isSome.mpr ⟨x, hmem, (congrArg (HashKind.equal · x key) hkind).trans hkey⟩
        rw [← hkept.find key] at hfind
        obtain ⟨y, hy⟩ := Option.isSome_iff_exists.mp hfind
        have hget : (h.getItem key).1 = some y := by
          unfold HashTable.getItem
          dsimp only at hy ⊢
          rw [hy]
        rw [Option.bind_some, hget]
        exact ⟨y, rfl⟩

/-- A get finds the number if it was put. -/
theorem DHash.Numbers.get (h : d.Numbers us heap) (key : HashKey υ) :
    ((d.get key).1.isSome = true ↔ key.u64 ∈ us) ∧ (d.get key).2.Numbers us heap := by
  obtain ⟨log, first, second, hkept, hus, hlt⟩ := h.kept
  have hmoved := DHashed.getItem_moved d key
  refine ⟨?_, hmoved.kind.trans h.kind, log, first, second, hkept.moved hmoved, hus, hlt⟩
  have hget : (d.get key).1 = (d.getItem key).1.bind (·.iPValue) := rfl
  rw [hget]
  constructor
  · intro hsome
    cases hx : (d.getItem key).1 with
    | none =>
        rw [hx] at hsome
        cases hsome
    | some x =>
        obtain ⟨hlog, hequal⟩ := hkept.get_mem hx
        dsimp only at hequal
        rw [h.kind] at hequal
        rw [← of_decide_eq_true hequal, ← hus]
        exact List.mem_map_of_mem hlog
  · intro hmem
    rw [← hus] at hmem
    obtain ⟨x, hx, hkey⟩ := List.mem_map.mp hmem
    obtain ⟨y, hy⟩ := hkept.found key hx (by
      dsimp only
      rw [h.kind]
      exact decide_eq_true hkey)
    obtain ⟨v, hv⟩ := Option.ne_none_iff_exists'.mp (hkept.value y (hkept.get_mem hy).1)
    rw [hy, Option.bind_some, hv]
    rfl

theorem DHash.Numbers.clear (h : d.Numbers us heap) : d.clear.Numbers [] heap := by
  obtain ⟨log, first, second, hkept, -, -⟩ := h.kept
  -- no item has a bucket that is not there
  have hnone : ∀ b, ¬b < d.dHash.hN → (second.filter fun x => d.index x.iPKey = b) = [] := by
    intro b hb
    refine List.filter_eq_nil_iff.mpr ?_
    intro x _ hx
    have hlt := hkept.index_lt x.iPKey
    rw [of_decide_eq_true hx] at hlt
    exact hb hlt
  have hlist : (⟨d.dHash.clear.2, []⟩ : Hashed υ β).Kept := Hashed.step_kept _ .clear _ hkept.list rfl
  refine ⟨h.kind, [], [], [], ⟨hkept.prim2, List.Perm.nil, hlist, ?_, ?_, List.nodup_nil, ?_, ?_, ?_⟩, rfl, ?_⟩
  · intro b t ht
    change (if b < d.dHash.hN then _ else _ : DHashElm υ β).ePHash = some t at ht
    rw [List.filter_nil]
    by_cases hb : b < d.dHash.hN
    · rw [if_pos hb] at ht
      obtain ⟨h', hh', rfl⟩ := Option.map_eq_some_iff.mp ht
      obtain ⟨hkind, htable⟩ := hkept.table b h' hh'
      exact ⟨hkind, Hashed.step_kept _ .clear _ htable rfl⟩
    · rw [if_neg hb] at ht
      obtain ⟨hkind, htable⟩ := hkept.table b t ht
      rw [hnone b hb] at htable
      exact ⟨hkind, htable⟩
  · intro b _
    rfl
  · intro x hx
    cases hx
  · intro x hx
    cases hx
  · obtain ⟨fails, hcnt, -⟩ := hkept.cnt
    refine ⟨fun b => if b < d.dHash.hN then 0 else fails b, ?_, ?_⟩
    · intro b
      dsimp only
      by_cases hb : b < d.dHash.hN
      · have helm : (d.clear.dAElm b).eCnt = 0 := congrArg DHashElm.eCnt (if_pos hb)
        rw [helm, if_pos hb, List.countP_nil]
        change (0 : ℤ) = int32 0
        rfl
      · have hzero : log.countP (fun x => d.index x.iPKey = b) = 0 := by
          rw [List.countP_eq_zero]
          intro x _ hx
          have hbelow := hkept.index_lt x.iPKey
          rw [of_decide_eq_true hx] at hbelow
          exact hb hbelow
        have helm : (d.clear.dAElm b).eCnt = (d.dAElm b).eCnt := congrArg DHashElm.eCnt (if_neg hb)
        rw [helm, if_neg hb, hcnt b, hzero, List.countP_nil]
    · refine List.sum_eq_zero ?_
      intro n hn
      obtain ⟨b, hb, rfl⟩ := List.mem_map.mp hn
      exact if_pos (List.mem_range.mp hb)
  · intro x hx
    cases hx

end PaxosSolutions.NWGadget
