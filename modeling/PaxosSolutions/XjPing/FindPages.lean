import PaxosSolutions.XjPing.TableEdits
import PaxosSolutions.XjPing.TableScan
import Mathlib.Data.Nat.Basic

/-!
# The replies of a search

The records that a search finds are collected in a buffer, and the buffer is sent
when it is full. A search with more records to come says so in its reply and goes on
with the same buffer. What a search has found and what it will find make up the used
records from the cursor on that satisfy the condition, up to the first that ends it.
-/
namespace PaxosSolutions.XjPing
open Lib

/-- What is done with the buffer. `p_reply_free` sends and frees it. -/
inductive BufUse where
  | write | handOver | read | free
deriving DecidableEq, Repr

/-- `r_res_find_t` with the records behind it, whose number is `f_num`. -/
structure FindReply where
  bytesflag : Bool
  fMore : Bool
  recs : List RHead

inductive FindStop where
  | ok | linkDown | err (e : RdbErr) | running
deriving DecidableEq, Repr

/-- What has come of a call: its replies, the uses of its buffer and its end. -/
structure FindOut where
  replies : List FindReply := []
  uses : List BufUse := []
  stop : FindStop

/-- How the loop over the slots has ended: `f_num` records are found, the buffer is
full, there are no more slots, a record is locked, the condition has failed. -/
inductive PageEnd where
  | count | full | last | busy | search
deriving DecidableEq, Repr

/-- The loop of `svc_find` over the next `k` slots, with the records `recs` in the
buffer and `cnt` records sent. -/
def findPage (load : Loader) (ud : Usr) (mode : RLock) (check : RHead → Option Bool)
    (num cnt m pn : ℕ) : ℕ → List RHead → TblM (List RHead × PageEnd)
  | 0, recs => return (recs, .last)
  | k + 1, recs => do
      let td ← get
      let i := td.uCursor ud
      let r ← slot load i pn
      if r.rStat.used then
        match check r.rHead with
        | none => return (recs, .search)
        | some false => do
            advance ud
            findPage load ud mode check num cnt m pn k recs
        | some true => do
            let found ← lockFound ud mode i r
            match found with
            | none => return (recs, .busy)
            | some r => do
                advance ud
                let recs := recs ++ [{ r.rHead with rStat := r.rStat }]
                if num ≤ cnt + recs.length then return (recs, .count)
                else if recs.length < m then findPage load ud mode check num cnt m pn k recs
                else return (recs, .full)
      else do
        advance ud
        findPage load ud mode check num cnt m pn k recs

/-- A call that ends without another reply of its own -/
def FindOut.last (uses : List BufUse) (stop : FindStop) : FindOut where
  uses := uses
  stop := stop

/-- The reply `reply` before the rest of a call -/
def FindOut.after (reply : FindReply) (uses : List BufUse) (rest : FindOut) : FindOut where
  replies := reply :: rest.replies
  uses := uses ++ rest.uses
  stop := rest.stop

/-- From the label `loop` of `svc_find` on. `sent` says which replies are sent. The
buffer of a reply that was sent has been freed when its `f_more` is looked at, which is
taken to be still there. -/
def findReplies (load : Loader) (sent : ℕ → Bool) (ud : Usr) (mode : RLock)
    (check : RHead → Option Bool) (num m pn : ℕ) : ℕ → ℕ → ℕ → Bool → TblM FindOut
  | 0, _, _, _ => return .last [] .running
  | fuel + 1, k, cnt, bytesflag => do
      let td ← get
      let page ← findPage load ud mode check num cnt m pn (td.tRecNum - td.uCursor ud) []
      let recs := page.1
      let writes := List.replicate recs.length BufUse.write
      if page.2 = .search then return .last (writes ++ [.free]) (.err .search)
      else if page.2 = .busy && recs.isEmpty then return .last [.free] (.err .recBusy)
      else do
        let bytesflag := bytesflag || (!recs.isEmpty && td.tScm.any fun ip => ip.iAttr = .bytes)
        let fMore := page.2 = .full || page.2 = .busy
        let reply : FindReply := ⟨bytesflag, fMore, recs⟩
        let uses := writes ++ [.write, .handOver]
        if !sent k then return .after reply uses (.last [] .linkDown)
        else if fMore then do
          let rest ← findReplies load sent ud mode check num m pn fuel (k + 1) (cnt + recs.length) bytesflag
          return .after reply (uses ++ [.read]) rest
        else return .after reply (uses ++ [.read]) (.last [] .ok)

/-- The number of the records that are loaded at once -/
def RTbl.pageNum (td : RTbl) : ℕ := if td.tRecSize ≤ R_PAGE_SIZE then R_PAGE_SIZE / td.tRecSize else 1

/-- `svc_find` with its replies -/
def svcFindReplies (load : Loader) (sent : ℕ → Bool) (ud : Usr) (mode : RLock)
    (check : RHead → Option Bool) (num : ℕ) : TblM FindOut := do
  let td ← get
  throwIf (td.checkLock ud mode.on) .tblBusy
  let pn := td.pageNum
  findReplies load sent ud mode check num (min num pn) pn (td.tRecNum + 2) 0 0 false

/-! ### What a search finds -/

/-- A record without its flags -/
def RHead.bare (rp : RHead) : RHead := { rp with rStat := {} }

/-- A record is locked against a user that asks for a lock, or for none. -/
def RRec.blocked (r : RRec) (ud : Usr) (mode : RLock) : Bool :=
  if mode.on then r.busyFor ud else r.rStat.exclusive && r.rAccess ≠ some ud

/-- A record that a search has locked, if it asks for a lock. -/
def RRec.lockedBy (r : RRec) (ud : Usr) (mode : RLock) : RRec :=
  if mode.on then { r with rStat := r.rStat.setLock mode, rAccess := some ud } else r

section Scan
variable (ud : Usr) (mode : RLock) (check : RHead → Option Bool)

/-- A search ends at this record with an error. -/
def stopsAt (r : RRec) : Bool :=
  r.rStat.used && ((check r.rHead).isNone || check r.rHead = some true && r.blocked ud mode)

/-- A search returns this record. -/
def takesAt (r : RRec) : Bool :=
  r.rStat.used && check r.rHead = some true && !r.blocked ud mode

/-- The error of a search that ends at this record -/
def stopErr (r : RRec) : RdbErr := if (check r.rHead).isNone then .search else .recBusy

variable (v : ℕ → RRec)

/-- The slots that a search finds among the next `k` ones -/
def foundFrom (k c : ℕ) : List ℕ :=
  ((List.range' c k).takeWhile fun i => !stopsAt ud mode check (v i)).filter
    fun i => takesAt ud mode check (v i)

/-- The slot among the next `k` ones that a search ends at -/
def stopFrom (k c : ℕ) : Option ℕ :=
  (List.range' c k).find? fun i => stopsAt ud mode check (v i)

end Scan

variable {td td₀ u : RTbl} {ud : Usr} {mode : RLock} {check : RHead → Option Bool} {v : ℕ → RRec}
  {num cnt m pn n c k i : ℕ} {S T : List ℕ} {recs : List RHead} {r : RRec}

theorem foundFrom_succ : foundFrom ud mode check v (k + 1) c =
    if stopsAt ud mode check (v c) then []
    else if takesAt ud mode check (v c) then c :: foundFrom ud mode check v k (c + 1)
    else foundFrom ud mode check v k (c + 1) := by
  unfold foundFrom
  rw [List.range'_succ, List.takeWhile_cons]
  cases stopsAt ud mode check (v c) with
  | true => rfl
  | false =>
      rw [Bool.not_false, if_pos rfl, List.filter_cons]
      rfl

theorem stopFrom_succ : stopFrom ud mode check v (k + 1) c =
    if stopsAt ud mode check (v c) then some c else stopFrom ud mode check v k (c + 1) := by
  unfold stopFrom
  rw [List.range'_succ, List.find?_cons]
  cases stopsAt ud mode check (v c) <;> rfl

/-! ### A table a search has come to -/

/-- Only the slots and the cursors of a table differ. -/
def Apart (td u : RTbl) : Prop := u = { td with tRec := u.tRec, uCursor := u.uCursor }

theorem Apart.refl (td : RTbl) : Apart td td := rfl

theorem Apart.trans {w : RTbl} (h : Apart td u) (h' : Apart u w) : Apart td w :=
  calc w
    _ = { u with tRec := w.tRec, uCursor := w.uCursor } := h'
    _ = { td with tRec := w.tRec, uCursor := w.uCursor } :=
        congrArg (fun t : RTbl => { t with tRec := w.tRec, uCursor := w.uCursor }) h

theorem ensure_apart (td : RTbl) (pn i : ℕ) : Apart td (td.ensure pn i) := by
  have hcursor : (td.ensure pn i).uCursor = td.uCursor := by rw [ensure_only]
  unfold Apart
  rw [hcursor]
  exact ensure_only

/-- The table `td` at the cursor `c`, with the records of `S` returned: its slots, once
they are loaded, are those of `v`, and those of `S` are locked. -/
structure Seen (pn n : ℕ) (ud : Usr) (mode : RLock) (td₀ : RTbl) (v : ℕ → RRec) (c : ℕ) (S : List ℕ)
    (td : RTbl) : Prop where
  num : td.tRecNum = n
  cursor : td.uCursor ud = c
  apart : Apart td₀ td
  below : ∀ j ∈ S, j < c
  slots : ∀ j, KeepsHead (if j ∈ S then (v j).lockedBy ud mode else v j)
    ((td.ensureFrom pn (n - c) c).tRec j)

theorem KeepsHead.blocked {r r' : RRec} (h : KeepsHead r r') : r'.blocked ud mode = r.blocked ud mode := by
  unfold RRec.blocked RRec.busyFor RStat.locked
  rw [h.exclusive, h.share, h.rAccess]

theorem KeepsHead.lockedBy {r r' : RRec} (h : KeepsHead r r') :
    KeepsHead (r.lockedBy ud mode) (r'.lockedBy ud mode) := by
  unfold RRec.lockedBy
  split
  · exact ⟨h.rHead, h.used, rfl, rfl, rfl⟩
  · exact h

/-- Loading the slot at the cursor is a part of loading the rest. -/
theorem ensureFrom_next (td : RTbl) (pn : ℕ) (hc : c < n) :
    td.ensureFrom pn (n - c) c = (td.ensure pn c).ensureFrom pn (n - (c + 1)) (c + 1) := by
  obtain ⟨k, hk⟩ : ∃ k, n - c = k + 1 := ⟨n - c - 1, by omega⟩
  have hk' : n - (c + 1) = k := by omega
  rw [hk, hk']
  rfl

/-- The record at the cursor, when it is read -/
theorem Seen.read (h : Seen pn n ud mode td₀ v c S td) (hc : c < n) :
    KeepsHead (v c) ((td.ensure pn c).tRec c) := by
  have hslot := h.slots c
  rw [if_neg fun hmem => lt_irrefl c (h.below c hmem), ensureFrom_next td pn hc] at hslot
  exact hslot.trans (ensureFrom_keepsHead _ pn _ (Nat.lt_succ_self c)).symm

theorem perform_advance : perform (advance ud) td = .ok (.ok (), td.advanced ud) := rfl

theorem Seen.ensure_cursor (h : Seen pn n ud mode td₀ v c S td) : (td.ensure pn c).uCursor ud = c := by
  rw [ensure_only]
  exact h.cursor

theorem Seen.ensure_num (h : Seen pn n ud mode td₀ v c S td) : (td.ensure pn c).tRecNum = n := by
  rw [ensure_only]
  exact h.num

/-- The cursor moves on from a slot, and the slots from the next one on are as they were. -/
theorem Seen.step (h : Seen pn n ud mode td₀ v c S td) (hc : c < n) {T : List ℕ} {f : ℕ → RRec}
    (hsame : SameFrom (c + 1) (td.ensure pn c) { td.ensure pn c with tRec := f })
    (hbelow : ∀ j ∈ T, j ≤ c)
    (hhere : KeepsHead (if c ∈ T then (v c).lockedBy ud mode else v c) (f c))
    (hbehind : ∀ j < c, f j = (td.ensure pn c).tRec j ∧ (j ∈ T ↔ j ∈ S)) :
    Seen pn n ud mode td₀ v (c + 1) T (RTbl.advanced { td.ensure pn c with tRec := f } ud) where
  num := h.ensure_num
  cursor := by
    have hcursor := h.ensure_cursor
    simp [RTbl.advanced, hcursor]
  apart := (h.apart.trans (ensure_apart td pn c)).trans rfl
  below j hj := Nat.lt_succ_of_le (hbelow j hj)
  slots j := by
    have hnext : SameFrom (c + 1) (td.ensure pn c)
        (RTbl.advanced { td.ensure pn c with tRec := f } ud) := ⟨hsame.num, hsame.file, hsame.slots⟩
    have hslot := h.slots j
    rw [ensureFrom_next td pn hc] at hslot
    rcases lt_trichotomy j c with hj | rfl | hj
    · have hread := ensureFrom_keepsHead (td.ensure pn c) pn (n - (c + 1)) (Nat.lt_succ_of_lt hj)
      have hkept := ensureFrom_keepsHead (RTbl.advanced { td.ensure pn c with tRec := f } ud) pn
        (n - (c + 1)) (Nat.lt_succ_of_lt hj)
      change KeepsHead (f j) _ at hkept
      rw [(hbehind j hj).1] at hkept
      simp only [(hbehind j hj).2]
      exact (hslot.trans hread.symm).trans hkept
    · exact hhere.trans (ensureFrom_keepsHead (RTbl.advanced { td.ensure pn j with tRec := f } ud) pn
        (n - (j + 1)) (Nat.lt_succ_self j))
    · have hT : j ∉ T := fun hmem => absurd (hbelow j hmem) (by omega)
      have hS : j ∉ S := fun hmem => absurd (h.below j hmem) (by omega)
      rw [if_neg hT, (hnext.ensureFrom le_rfl pn (n - (c + 1))).slots j hj]
      rwa [if_neg hS] at hslot

theorem Seen.skip (h : Seen pn n ud mode td₀ v c S td) (hc : c < n) :
    Seen pn n ud mode td₀ v (c + 1) S ((td.ensure pn c).advanced ud) := by
  refine h.step hc ⟨rfl, rfl, fun _ _ => rfl⟩ (fun j hj => Nat.le_of_lt (h.below j hj)) ?_
    fun j _ => ⟨rfl, .rfl⟩
  rw [if_neg fun hmem => lt_irrefl c (h.below c hmem)]
  exact h.read hc

/-- The record at the cursor is returned. -/
theorem Seen.take (h : Seen pn n ud mode td₀ v c S td) (hc : c < n) :
    Seen pn n ud mode td₀ v (c + 1) (S ++ [c])
      (((td.ensure pn c).setRec c (((td.ensure pn c).tRec c).lockedBy ud mode)).advanced ud) := by
  refine h.step hc ⟨rfl, rfl, fun j hj => setRec_ne _ (by omega)⟩ ?_ ?_ ?_
  · intro j hj
    rcases List.mem_append.mp hj with hj | hj
    · exact Nat.le_of_lt (h.below j hj)
    · exact Nat.le_of_eq (List.mem_singleton.mp hj)
  · rw [if_pos (by simp), Function.update_self]
    exact (h.read hc).lockedBy
  · intro j hj
    have hne : j ≠ c := Nat.ne_of_lt hj
    refine ⟨Function.update_of_ne hne .., ?_⟩
    simp [hne]

/-- The record at the cursor is read, and the cursor stays. -/
theorem Seen.stay (h : Seen pn n ud mode td₀ v c S td) (hc : c < n) :
    Seen pn n ud mode td₀ v c S (td.ensure pn c) where
  num := h.ensure_num
  cursor := h.ensure_cursor
  apart := h.apart.trans (ensure_apart td pn c)
  below := h.below
  slots j := by
    have hslot := h.slots j
    rw [ensureFrom_next td pn hc] at hslot
    rw [ensureFrom_next _ pn hc, ensure_ensure (by rw [h.num]; exact hc)]
    exact hslot

theorem perform_lockFound (hr : td.tRec i = r) : perform (lockFound ud mode i r) td =
    if r.blocked ud mode then .ok (.ok none, td)
    else .ok (.ok (some (r.lockedBy ud mode)), td.setRec i (r.lockedBy ud mode)) := by
  unfold lockFound RRec.blocked RRec.lockedBy
  by_cases hon : mode.on = true
  · rw [if_pos hon, if_pos hon, if_pos hon]
    split <;> rfl
  · have hset : td.setRec i r = td := by
      rw [← hr]
      unfold RTbl.setRec
      rw [Function.update_eq_self]
    rw [if_neg hon, if_neg hon, if_neg hon, hset]
    split <;> rfl

/-! ### A page -/

/-- How a page of the slots `T` has ended, when `a` records were asked for and there
was room for `b`. -/
def PageEnds (ud : Usr) (mode : RLock) (check : RHead → Option Bool) (v : ℕ → RRec) (n c : ℕ)
    (T : List ℕ) (a b : ℕ) : PageEnd → Prop
  | .count => T.length = a ∧ a ≤ b
  | .full => T.length = b ∧ b < a
  | .last => T.length < a ∧ T.length < b ∧ foundFrom ud mode check v (n - c) c = [] ∧
      stopFrom ud mode check v (n - c) c = none
  | .busy => T.length < a ∧ T.length < b ∧ stopFrom ud mode check v (n - c) c = some c ∧
      stopErr check (v c) = .recBusy
  | .search => T.length < a ∧ T.length < b ∧ stopFrom ud mode check v (n - c) c = some c ∧
      stopErr check (v c) = .search

/-- From the cursor `c` to the cursor `c'` the search has found `T`. -/
structure Found (ud : Usr) (mode : RLock) (check : RHead → Option Bool) (v : ℕ → RRec) (n c : ℕ)
    (T : List ℕ) (c' : ℕ) : Prop where
  found : foundFrom ud mode check v (n - c) c = T ++ foundFrom ud mode check v (n - c') c'
  stop : stopFrom ud mode check v (n - c) c = stopFrom ud mode check v (n - c') c'

theorem foundFrom_lt (hc : c < n) : foundFrom ud mode check v (n - c) c =
    if stopsAt ud mode check (v c) then []
    else if takesAt ud mode check (v c) then c :: foundFrom ud mode check v (n - (c + 1)) (c + 1)
    else foundFrom ud mode check v (n - (c + 1)) (c + 1) := by
  obtain ⟨k, hk⟩ : ∃ k, n - c = k + 1 := ⟨n - c - 1, by omega⟩
  have hk' : n - (c + 1) = k := by omega
  rw [hk, hk', foundFrom_succ]

theorem stopFrom_lt (hc : c < n) : stopFrom ud mode check v (n - c) c =
    if stopsAt ud mode check (v c) then some c else stopFrom ud mode check v (n - (c + 1)) (c + 1) := by
  obtain ⟨k, hk⟩ : ∃ k, n - c = k + 1 := ⟨n - c - 1, by omega⟩
  have hk' : n - (c + 1) = k := by omega
  rw [hk, hk', stopFrom_succ]

variable {c' : ℕ}

theorem Found.here : Found ud mode check v n c [] c := ⟨rfl, rfl⟩

/-- A slot that is passed over -/
theorem Found.skip (hc : c < n) (hstop : stopsAt ud mode check (v c) = false)
    (htake : takesAt ud mode check (v c) = false) (h : Found ud mode check v n (c + 1) T c') :
    Found ud mode check v n c T c' where
  found := by
    rw [foundFrom_lt hc, hstop, htake, ← h.found]
    rfl
  stop := by
    rw [stopFrom_lt hc, hstop, ← h.stop]
    rfl

/-- A slot that is returned -/
theorem Found.take (hc : c < n) (hstop : stopsAt ud mode check (v c) = false)
    (htake : takesAt ud mode check (v c) = true) (h : Found ud mode check v n (c + 1) T c') :
    Found ud mode check v n c (c :: T) c' where
  found := by
    rw [foundFrom_lt hc, hstop, htake, List.cons_append, ← h.found]
    rfl
  stop := by
    rw [stopFrom_lt hc, hstop, ← h.stop]
    rfl

theorem PageEnds.cons {a b : ℕ} {e : PageEnd} (h : PageEnds ud mode check v n c' T a b e) :
    PageEnds ud mode check v n c' (c :: T) (a + 1) (b + 1) e := by
  cases e with
  | count => exact ⟨congrArg (· + 1) h.1, Nat.succ_le_succ h.2⟩
  | full => exact ⟨congrArg (· + 1) h.1, Nat.succ_lt_succ h.2⟩
  | last => exact ⟨Nat.succ_lt_succ h.1, Nat.succ_lt_succ h.2.1, h.2.2⟩
  | busy => exact ⟨Nat.succ_lt_succ h.1, Nat.succ_lt_succ h.2.1, h.2.2⟩
  | search => exact ⟨Nat.succ_lt_succ h.1, Nat.succ_lt_succ h.2.1, h.2.2⟩

/-- What comes of the loop over the slots from the cursor `c` on -/
structure PageFrom (pn n : ℕ) (ud : Usr) (mode : RLock) (check : RHead → Option Bool) (td₀ : RTbl)
    (v : ℕ → RRec) (c : ℕ) (S : List ℕ) (a b : ℕ) (recs recs' : List RHead) (e : PageEnd) (u : RTbl)
    (T : List ℕ) (c' : ℕ) : Prop where
  bare : recs'.map RHead.bare = recs.map RHead.bare ++ T.map fun i => (v i).rHead.bare
  seen : Seen pn n ud mode td₀ v c' (S ++ T) u
  found : Found ud mode check v n c T c'
  ends : PageEnds ud mode check v n c' T a b e

/-- The loop ends at the cursor. -/
theorem PageFrom.here {a b : ℕ} {e : PageEnd} (h : Seen pn n ud mode td₀ v c S u)
    (he : PageEnds ud mode check v n c [] a b e) :
    PageFrom pn n ud mode check td₀ v c S a b recs recs e u [] c := by
  refine ⟨?_, ?_, .here, he⟩
  · simp
  · rwa [List.append_nil]

/-- The record at the cursor comes into the buffer. -/
theorem PageFrom.cons {a b : ℕ} {recs' : List RHead} {e : PageEnd} {x : RHead} (hc : c < n)
    (hstop : stopsAt ud mode check (v c) = false) (htake : takesAt ud mode check (v c) = true)
    (hx : x.bare = (v c).rHead.bare)
    (h : PageFrom pn n ud mode check td₀ v (c + 1) (S ++ [c]) a b (recs ++ [x]) recs' e u T c') :
    PageFrom pn n ud mode check td₀ v c S (a + 1) (b + 1) recs recs' e u (c :: T) c' where
  bare := by
    rw [h.bare, List.map_append, List.append_assoc, List.map_cons, hx]
    rfl
  seen := by
    have hseen := h.seen
    rwa [List.append_assoc] at hseen
  found := h.found.take hc hstop htake
  ends := h.ends.cons

/-- A record as it comes into the buffer -/
def RRec.copied (r : RRec) (ud : Usr) (mode : RLock) : RHead :=
  { (r.lockedBy ud mode).rHead with rStat := (r.lockedBy ud mode).rStat }

theorem bare_copied (h : KeepsHead (v c) r) : (r.copied ud mode).bare = (v c).rHead.bare := by
  have hhead : (r.lockedBy ud mode).rHead = r.rHead := by
    unfold RRec.lockedBy
    split <;> rfl
  unfold RRec.copied
  rw [hhead, h.rHead]
  rfl

theorem findPage_spec (check : RHead → Option Bool) (num cnt m k : ℕ) (recs : List RHead)
    (h : Seen pn n ud mode td₀ v c S td) (hk : n - c = k)
    (hcnt : cnt + recs.length < num) (hm : recs.length < max 1 m) :
    ∃ recs' e u T c',
      perform (findPage svcLoad ud mode check num cnt m pn k recs) td = .ok (.ok (recs', e), u) ∧
      PageFrom pn n ud mode check td₀ v c S (num - cnt - recs.length) (max 1 m - recs.length)
        recs recs' e u T c' := by
  induction k generalizing td c S recs with
  | zero =>
      refine ⟨recs, .last, td, [], c, rfl, .here h ⟨?_, ?_, ?_, ?_⟩⟩
      · exact (by omega : 0 < num - cnt - recs.length)
      · exact (by omega : 0 < max 1 m - recs.length)
      · rw [hk]
        rfl
      · rw [hk]
        rfl
  | succ k ih =>
      have hc : c < n := by omega
      have ha : 0 < num - cnt - recs.length := by omega
      have hb : 0 < max 1 m - recs.length := by omega
      have hread := h.read hc
      -- the search passes the slot over
      have hpass (hstop : stopsAt ud mode check (v c) = false)
          (htake : takesAt ud mode check (v c) = false) : ∃ recs' e u T c',
          perform (findPage svcLoad ud mode check num cnt m pn k recs) ((td.ensure pn c).advanced ud) =
              .ok (.ok (recs', e), u) ∧
            PageFrom pn n ud mode check td₀ v c S (num - cnt - recs.length) (max 1 m - recs.length)
              recs recs' e u T c' := by
        obtain ⟨recs', e, u, T, c', hrun, hpage⟩ := ih recs (h.skip hc) (by omega) hcnt hm
        exact ⟨recs', e, u, T, c', hrun, hpage.bare, hpage.seen, hpage.found.skip hc hstop htake,
          hpage.ends⟩
      have hends {e : PageEnd} (hstop : stopsAt ud mode check (v c) = true)
          (he : ∀ T : List ℕ, T.length < num - cnt - recs.length → T.length < max 1 m - recs.length →
            stopFrom ud mode check v (n - c) c = some c →
            PageEnds ud mode check v n c T (num - cnt - recs.length) (max 1 m - recs.length) e) :
          PageFrom pn n ud mode check td₀ v c S (num - cnt - recs.length) (max 1 m - recs.length)
            recs recs e (td.ensure pn c) [] c :=
        .here (h.stay hc) (he [] ha hb (by rw [stopFrom_lt hc, hstop]; rfl))
      rw [findPage, perform_bind_of_ok perform_get, h.cursor, perform_bind_of_ok perform_slot_load]
      by_cases hused : (v c).rStat.used = true
      · rw [if_pos (hread.used.trans hused), hread.rHead]
        cases hcheck : check (v c).rHead with
        | none =>
            have hstop : stopsAt ud mode check (v c) = true := by simp [stopsAt, hused, hcheck]
            refine ⟨recs, .search, td.ensure pn c, [], c, rfl, hends hstop fun T hT hT' hs => ?_⟩
            exact ⟨hT, hT', hs, by simp [stopErr, hcheck]⟩
        | some found =>
            cases found with
            | false =>
                exact hpass (by simp [stopsAt, hused, hcheck]) (by simp [takesAt, hcheck])
            | true =>
                dsimp only
                rw [perform_bind, perform_lockFound rfl, hread.blocked]
                by_cases hblocked : (v c).blocked ud mode = true
                · rw [if_pos hblocked]
                  have hstop : stopsAt ud mode check (v c) = true := by
                    simp [stopsAt, hused, hcheck, hblocked]
                  refine ⟨recs, .busy, td.ensure pn c, [], c, rfl, hends hstop fun T hT hT' hs => ?_⟩
                  exact ⟨hT, hT', hs, by simp [stopErr, hcheck]⟩
                · rw [if_neg hblocked]
                  have hstop : stopsAt ud mode check (v c) = false := by
                    simp [stopsAt, hused, hcheck, hblocked]
                  have htake : takesAt ud mode check (v c) = true := by
                    simp [takesAt, hused, hcheck, hblocked]
                  have hx : (((td.ensure pn c).tRec c).copied ud mode).bare = (v c).rHead.bare :=
                    bare_copied hread
                  have hseen := h.take hc
                  have ha' : num - cnt - recs.length = num - cnt - (recs.length + 1) + 1 := by omega
                  have hb' : max 1 m - recs.length = max 1 m - (recs.length + 1) + 1 := by omega
                  rw [ha', hb']
                  change ∃ recs' e u T c', perform (do
                    advance ud
                    let recs := recs ++ [((td.ensure pn c).tRec c).copied ud mode]
                    if num ≤ cnt + recs.length then pure (recs, .count)
                    else if recs.length < m then findPage svcLoad ud mode check num cnt m pn k recs
                    else pure (recs, .full)) _ = _ ∧ _
                  rw [perform_bind_of_ok perform_advance]
                  dsimp only
                  rw [List.length_append, List.length_singleton]
                  by_cases hcount : num ≤ cnt + (recs.length + 1)
                  · rw [if_pos hcount]
                    refine ⟨_, .count, _, [c], c + 1, rfl, .cons hc hstop htake hx (.here hseen ⟨?_, ?_⟩)⟩
                    · exact (by omega : 0 = num - cnt - (recs.length + 1))
                    · omega
                  · rw [if_neg hcount]
                    by_cases hroom : recs.length + 1 < m
                    · rw [if_pos hroom]
                      generalize ((td.ensure pn c).tRec c).copied ud mode = x at hx ⊢
                      have hlen : (recs ++ [x]).length = recs.length + 1 := by simp
                      have hcnt' : cnt + (recs ++ [x]).length < num := by omega
                      have hm' : (recs ++ [x]).length < max 1 m := by omega
                      obtain ⟨recs', e, u, T, c', hrun, hpage⟩ := ih _ hseen (by omega) hcnt' hm'
                      rw [hlen] at hpage
                      exact ⟨recs', e, u, c :: T, c', hrun, hpage.cons hc hstop htake hx⟩
                    · rw [if_neg hroom]
                      refine ⟨_, .full, _, [c], c + 1, rfl, .cons hc hstop htake hx (.here hseen ⟨?_, ?_⟩)⟩
                      · exact (by omega : 0 = max 1 m - (recs.length + 1))
                      · omega
      · have hused' : (v c).rStat.used = false := Bool.eq_false_iff.mpr hused
        rw [if_neg (by rw [hread.used]; exact hused)]
        exact hpass (by simp [stopsAt, hused']) (by simp [takesAt, hused'])

/-! ### The replies of a call -/

def FindOut.records (out : FindOut) : List RHead := out.replies.flatMap FindReply.recs

/-- Nothing is read from or written to a buffer that was handed over. -/
def BufferKept (uses : List BufUse) : Prop :=
  ∀ pre post, uses = pre ++ .handOver :: post → BufUse.read ∉ post ∧ BufUse.write ∉ post

/-- What is returned of the slots `T` that were found: what is in the buffer when the
condition fails on a record is not sent. -/
def returnedOf (M : ℕ) (T : List ℕ) (stop : FindStop) : List ℕ :=
  if stop = .err .search then T.take (T.length - T.length % M) else T

/-- How a call with the slots `T` has ended, when `a` records were asked for. -/
def CallEnds (ud : Usr) (mode : RLock) (check : RHead → Option Bool) (v : ℕ → RRec) (n c : ℕ)
    (T : List ℕ) (a : ℕ) : FindStop → Prop
  | .ok => T.length = a ∨ T.length < a ∧ foundFrom ud mode check v (n - c) c = [] ∧
      stopFrom ud mode check v (n - c) c = none
  | .err e => T.length < a ∧ stopFrom ud mode check v (n - c) c = some c ∧ stopErr check (v c) = e
  | .linkDown => False
  | .running => False

/-- What comes of a call from the cursor `c` on -/
structure CallFrom (pn n : ℕ) (ud : Usr) (mode : RLock) (check : RHead → Option Bool) (td₀ : RTbl)
    (v : ℕ → RRec) (c : ℕ) (S : List ℕ) (a M : ℕ) (out : FindOut) (u : RTbl) (T : List ℕ) (c' : ℕ) :
    Prop where
  bare : out.records.map RHead.bare = (returnedOf M T out.stop).map fun i => (v i).rHead.bare
  seen : Seen pn n ud mode td₀ v c' (S ++ T) u
  found : Found ud mode check v n c T c'
  ends : CallEnds ud mode check v n c' T a out.stop
  more : ∀ i (hi : i < out.replies.length), (out.replies[i]).fMore = true ↔
    i + 1 < out.replies.length ∨ ∃ e, out.stop = .err e
  kept : BufferKept out.uses ↔ out.replies = []
  silent : out.replies = [] ↔ (∃ e, out.stop = .err e) ∧ out.records = []

variable {out rest : FindOut} {reply : FindReply} {uses : List BufUse}

/-- The uses of a buffer that is filled with `l` records, sent and looked at. -/
def pageUses (l : ℕ) : List BufUse := List.replicate l .write ++ [.write, .handOver] ++ [.read]

theorem bufferKept_last (l : ℕ) : BufferKept (List.replicate l .write ++ [.free]) := by
  intro pre post h
  have hmem : BufUse.handOver ∈ List.replicate l BufUse.write ++ [.free] := by
    rw [h]
    simp
  simp at hmem

theorem not_bufferKept (pre rest : List BufUse) :
    ¬BufferKept (pre ++ [.write, .handOver] ++ [.read] ++ rest) := by
  intro h
  have hpost := h (pre ++ [.write]) (.read :: rest) (by simp)
  exact hpost.1 List.mem_cons_self

theorem stopFrom_unique {c'' : ℕ} (h : Found ud mode check v n c T c')
    (hc : stopFrom ud mode check v (n - c) c = some c)
    (hc' : stopFrom ud mode check v (n - c') c' = some c'') : c'' = c := by
  rw [h.stop, hc'] at hc
  exact Option.some.inj hc

/-- Pages go before the rest of a call. -/
theorem returnedOf_append {M : ℕ} {T₁ T₂ : List ℕ} {stop : FindStop}
    (h : T₁.length = M ∨ stop ≠ .err .search) :
    returnedOf M (T₁ ++ T₂) stop = T₁ ++ returnedOf M T₂ stop := by
  unfold returnedOf
  by_cases hs : stop = .err .search
  · have hlen := h.resolve_right (not_not.mpr hs)
    have hmod : (T₁ ++ T₂).length - (T₁ ++ T₂).length % M =
        T₁.length + (T₂.length - T₂.length % M) := by
      rw [List.length_append, hlen, Nat.add_mod_left]
      have := Nat.mod_le T₂.length M
      omega
    rw [if_pos hs, if_pos hs, hmod, List.take_append, List.take_of_length_le (Nat.le_add_right ..),
      Nat.add_sub_cancel_left]
  · rw [if_neg hs, if_neg hs]

/-- A reply before the rest of a call that goes on. -/
theorem CallFrom.after {a M : ℕ} {T₁ T₂ : List ℕ} {c₁ l : ℕ} {reply : FindReply}
    (hrest : CallFrom pn n ud mode check td₀ v c₁ (S ++ T₁) a M rest u T₂ c')
    (hfound : Found ud mode check v n c T₁ c₁)
    (hbare : reply.recs.map RHead.bare = T₁.map fun i => (v i).rHead.bare) (hmore : reply.fMore = true)
    (hnil : T₁ ≠ []) (hpage : T₁.length = M ∨ rest.stop ≠ .err .search) :
    CallFrom pn n ud mode check td₀ v c S (T₁.length + a) M
      (.after reply (pageUses l) rest) u (T₁ ++ T₂) c' where
  bare := by
    change ((reply.recs ++ rest.records).map RHead.bare) = _
    rw [List.map_append, hbare, hrest.bare, ← List.map_append, ← returnedOf_append hpage]
    rfl
  seen := by
    rw [← List.append_assoc]
    exact hrest.seen
  found := ⟨by rw [hfound.found, hrest.found.found, List.append_assoc],
    hfound.stop.trans hrest.found.stop⟩
  ends := by
    have hends := hrest.ends
    change CallEnds ud mode check v n c' (T₁ ++ T₂) (T₁.length + a) rest.stop
    unfold CallEnds at hends ⊢
    rw [List.length_append]
    cases hs : rest.stop with
    | ok =>
        rw [hs] at hends
        exact hends.imp (by omega) fun hlast => ⟨by omega, hlast.2⟩
    | err e =>
        rw [hs] at hends
        exact ⟨by have := hends.1; omega, hends.2⟩
    | linkDown =>
        rw [hs] at hends
        exact hends
    | running =>
        rw [hs] at hends
        exact hends
  more i hi := by
    cases i with
    | zero =>
        refine iff_of_true hmore ?_
        change 0 + 1 < rest.replies.length + 1 ∨ ∃ e, rest.stop = .err e
        by_cases hr : rest.replies = []
        · exact .inr (hrest.silent.mp hr).1
        · have := List.length_pos_of_ne_nil hr
          exact .inl (by omega)
    | succ i =>
        have hi' : i < rest.replies.length := Nat.lt_of_succ_lt_succ hi
        have hrec := hrest.more i hi'
        change (rest.replies[i]).fMore = true ↔
          i + 1 + 1 < rest.replies.length + 1 ∨ ∃ e, rest.stop = .err e
        rw [hrec, Nat.succ_lt_succ_iff]
  kept := iff_of_false (not_bufferKept _ _) (List.cons_ne_nil _ _)
  silent := by
    refine iff_of_false (List.cons_ne_nil _ _) fun h => ?_
    have hrecs : reply.recs ≠ [] := by
      intro hr
      rw [hr] at hbare
      exact hnil (List.map_eq_nil_iff.mp hbare.symm)
    exact hrecs (List.append_eq_nil_iff.mp h.2).1

/-- The last reply of a call. -/
theorem CallFrom.final {a M l : ℕ} {reply : FindReply} (hseen : Seen pn n ud mode td₀ v c' (S ++ T) u)
    (hfound : Found ud mode check v n c T c')
    (hbare : reply.recs.map RHead.bare = T.map fun i => (v i).rHead.bare) (hmore : reply.fMore = false)
    (hends : CallEnds ud mode check v n c' T a .ok) :
    CallFrom pn n ud mode check td₀ v c S a M
      (.after reply (pageUses l) (.last [] .ok)) u T c' where
  bare := by
    change (reply.recs ++ []).map RHead.bare = _
    rw [List.append_nil, hbare]
    rfl
  seen := hseen
  found := hfound
  ends := hends
  more i hi := by
    obtain rfl : i = 0 := Nat.lt_one_iff.mp hi
    refine iff_of_false (by rw [← Bool.not_eq_true] at hmore; exact hmore) ?_
    rintro (h | ⟨e, h⟩)
    · exact absurd h (Nat.lt_irrefl 1)
    · cases h
  kept := iff_of_false (not_bufferKept _ _) (List.cons_ne_nil _ _)
  silent := by
    refine iff_of_false (List.cons_ne_nil _ _) fun h => ?_
    obtain ⟨e, he⟩ := h.1
    cases he

/-- A call that ends with an error only. -/
theorem CallFrom.error {a M l : ℕ} {e : RdbErr} (hseen : Seen pn n ud mode td₀ v c' (S ++ T) u)
    (hfound : Found ud mode check v n c T c') (hnil : returnedOf M T (.err e) = [])
    (hends : CallEnds ud mode check v n c' T a (.err e)) :
    CallFrom pn n ud mode check td₀ v c S a M
      (.last (List.replicate l .write ++ [.free]) (.err e)) u T c' where
  bare := by
    change [] = _
    rw [FindOut.last, hnil]
    rfl
  seen := hseen
  found := hfound
  ends := hends
  more i hi := absurd hi (Nat.not_lt_zero i)
  kept := iff_of_true (bufferKept_last l) rfl
  silent := iff_of_true rfl ⟨⟨e, rfl⟩, rfl⟩

/-- `bytesflag` of the next reply -/
def RTbl.nextFlag (td : RTbl) (bytesflag : Bool) (recs : List RHead) : Bool :=
  bytesflag || (!recs.isEmpty && td.tScm.any fun ip => ip.iAttr = .bytes)

variable {sent : ℕ → Bool} {e : PageEnd} {fuel : ℕ} {bytesflag : Bool}

/-- A call that goes on after a reply. -/
theorem findReplies_goesOn (hsent : sent k = true) (he : e = .full ∨ e = .busy ∧ recs ≠ []) {w : RTbl}
    (hrun : perform (findPage svcLoad ud mode check num cnt m pn (td.tRecNum - td.uCursor ud) []) td =
      .ok (.ok (recs, e), u))
    (hrest : perform (findReplies svcLoad sent ud mode check num m pn fuel (k + 1) (cnt + recs.length)
      (td.nextFlag bytesflag recs)) u = .ok (.ok rest, w)) :
    perform (findReplies svcLoad sent ud mode check num m pn (fuel + 1) k cnt bytesflag) td =
      .ok (.ok (.after ⟨td.nextFlag bytesflag recs, true, recs⟩ (pageUses recs.length) rest), w) := by
  have hnotSent : ¬(!sent k) = true := by simp [hsent]
  rw [findReplies, perform_bind_of_ok perform_get, perform_bind_of_ok hrun]
  rcases he with rfl | ⟨rfl, hne⟩
  · dsimp only
    rw [if_neg (by decide), if_neg (by simp), if_neg hnotSent, if_pos (by simp)]
    exact perform_bind_of_ok hrest
  · dsimp only
    rw [if_neg (by decide), if_neg (by simpa using hne), if_neg hnotSent, if_pos (by simp)]
    exact perform_bind_of_ok hrest

/-- A call that ends with a reply. -/
theorem findReplies_ends (hsent : sent k = true) (he : e = .count ∨ e = .last)
    (hrun : perform (findPage svcLoad ud mode check num cnt m pn (td.tRecNum - td.uCursor ud) []) td =
      .ok (.ok (recs, e), u)) :
    perform (findReplies svcLoad sent ud mode check num m pn (fuel + 1) k cnt bytesflag) td =
      .ok (.ok (.after ⟨td.nextFlag bytesflag recs, false, recs⟩ (pageUses recs.length) (.last [] .ok)),
        u) := by
  have hnotSent : ¬(!sent k) = true := by simp [hsent]
  rw [findReplies, perform_bind_of_ok perform_get, perform_bind_of_ok hrun]
  rcases he with rfl | rfl
  · dsimp only
    rw [if_neg (by decide), if_neg (by simp), if_neg hnotSent, if_neg (by simp)]
    rfl
  · dsimp only
    rw [if_neg (by decide), if_neg (by simp), if_neg hnotSent, if_neg (by simp)]
    rfl

theorem findReplies_spec (hsent : ∀ k, sent k = true) (fuel k cnt : ℕ) (bytesflag : Bool)
    (h : Seen pn n ud mode td₀ v c S td) (hcnt : cnt < num)
    (hfuel : (foundFrom ud mode check v (n - c) c).length < fuel) :
    ∃ out u T c', perform (findReplies svcLoad sent ud mode check num m pn fuel k cnt bytesflag) td =
        .ok (.ok out, u) ∧
      CallFrom pn n ud mode check td₀ v c S (num - cnt) (max 1 m) out u T c' := by
  induction fuel generalizing td c S k cnt bytesflag with
  | zero => exact absurd hfuel (Nat.not_lt_zero _)
  | succ fuel ih =>
      obtain ⟨recs, e, u, T, c₁, hrun, hpage⟩ := findPage_spec check num cnt m (n - c) [] h rfl
        hcnt (Nat.lt_of_lt_of_le Nat.one_pos (Nat.le_max_left 1 m))
      have hbare : recs.map RHead.bare = T.map fun i => (v i).rHead.bare := hpage.bare
      have hlen : recs.length = T.length := by
        have := congrArg List.length hbare
        rwa [List.length_map, List.length_map] at this
      have hends := hpage.ends
      rw [← h.num, ← h.cursor] at hrun
      -- what is found is less after a page that is not empty
      have hgoesOn (he : e = .full ∨ e = .busy ∧ recs ≠ []) (hnil : T ≠ []) (hlt : T.length < num - cnt)
          (hM : e = .full → T.length = max 1 m) : ∃ out u T c',
          perform (findReplies svcLoad sent ud mode check num m pn (fuel + 1) k cnt bytesflag) td =
              .ok (.ok out, u) ∧
            CallFrom pn n ud mode check td₀ v c S (num - cnt) (max 1 m) out u T c' := by
        have hfuel' : (foundFrom ud mode check v (n - c₁) c₁).length < fuel := by
          have hpos := List.length_pos_of_ne_nil hnil
          rw [hpage.found.found, List.length_append] at hfuel
          omega
        obtain ⟨rest, w, T₂, c₂, hrest, hcall⟩ := ih (k + 1) (cnt + recs.length)
          (td.nextFlag bytesflag recs) hpage.seen (by omega) hfuel'
        refine ⟨_, w, T ++ T₂, c₂, findReplies_goesOn (hsent k) he hrun hrest, ?_⟩
        have hwant : num - cnt = T.length + (num - (cnt + recs.length)) := by omega
        rw [hwant]
        refine hcall.after hpage.found hbare rfl hnil ?_
        rcases he with rfl | ⟨rfl, _⟩
        · exact .inl (hM rfl)
        · refine .inr fun hstop => ?_
          have hrest := hcall.ends
          rw [hstop] at hrest
          obtain rfl : c₂ = c₁ := stopFrom_unique hcall.found hends.2.2.1 hrest.2.1
          cases hends.2.2.2.symm.trans hrest.2.2
      cases e with
      | count =>
          exact ⟨_, u, T, c₁, findReplies_ends (hsent k) (.inl rfl) hrun,
            .final hpage.seen hpage.found hbare rfl (.inl hends.1)⟩
      | last =>
          exact ⟨_, u, T, c₁, findReplies_ends (hsent k) (.inr rfl) hrun,
            .final hpage.seen hpage.found hbare rfl (.inr ⟨hends.1, hends.2.2.1, hends.2.2.2⟩)⟩
      | search =>
          have hnil : returnedOf (max 1 m) T (.err .search) = [] := by
            have hmod : T.length % max 1 m = T.length := Nat.mod_eq_of_lt hends.2.1
            rw [returnedOf, if_pos rfl, hmod, Nat.sub_self, List.take_zero]
          rw [findReplies, perform_bind_of_ok perform_get, perform_bind_of_ok hrun]
          exact ⟨_, u, T, c₁, rfl, .error hpage.seen hpage.found hnil ⟨hends.1, hends.2.2⟩⟩
      | full =>
          have hnil : T ≠ [] := by
            rintro rfl
            have h0 : 0 = max 1 m := hends.1
            omega
          exact hgoesOn (.inl rfl) hnil (by have := hends.1; have := hends.2; omega) fun _ => hends.1
      | busy =>
          by_cases hnil : T = []
          · subst hnil
            obtain rfl : recs = [] := List.eq_nil_of_length_eq_zero hlen
            rw [findReplies, perform_bind_of_ok perform_get, perform_bind_of_ok hrun]
            exact ⟨_, u, [], c₁, rfl, .error (l := 0) hpage.seen hpage.found rfl ⟨hends.1, hends.2.2⟩⟩
          · refine hgoesOn (.inr ⟨rfl, ?_⟩) hnil hends.1 fun h => ?_
            · rintro rfl
              exact hnil (List.eq_nil_of_length_eq_zero hlen.symm)
            · cases h

end PaxosSolutions.XjPing
