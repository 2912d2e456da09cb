import PaxosSolutions.Lib.Ring

/-!
# Loops over elements

`GElmLoop` goes through a list of links that are members of elements. It adds the
offset of the member to the address of the link, where the address of the element
is that much before it.
-/
namespace PaxosSolutions
open Lib

/-- `GElmLoop` with `ge_fLoop` -/
def gElmLoop {σ ε : Type} (links : σ → Links) (fLoop : ℕ → σ → Except ε (ℤ × σ)) (pHead off : ℕ)
    (fuel : ℕ) (s : σ) : Option (Except ε (ℤ × σ)) :=
  let pE := (links s).next pHead
  forEachSafe links (fun pE => fLoop (pE + off)) pHead fuel pE ((links s).next pE) 0 s

/-- Whatever the loop function does with its own element, it is called with the base
addresses of the elements, once with each. -/
def CallsBases (pHead off : ℕ) (l : Links) (bases : List ℕ) : Prop :=
  ∀ (τ : Type) (fLoop : ℕ → Links × τ → Except Unit (ℤ × Links × τ)),
    OwnLink Prod.fst (fun e => fLoop (e - off)) pHead → ∀ t fuel, bases.length < fuel →
      gElmLoop Prod.fst fLoop pHead off fuel (l, t) =
        some ((run (fun s a => (fLoop a s).map Prod.snd) (l, t) bases).map fun s => (0, s))

variable {σ ε : Type} {links : σ → Links} {fLoop : ℕ → σ → Except ε (ℤ × σ)} {pHead off : ℕ}
  {l : Links} {bases es : List ℕ}

theorem gElmLoop_eq (fLoop : ℕ → σ → Except ε (ℤ × σ))
    (hf : OwnLink links (fun pE => fLoop (pE + off)) pHead) {s : σ} {fuel : ℕ}
    (h : (links s).Ring pHead es) (hfuel : es.length < fuel) :
    gElmLoop links fLoop pHead off fuel s =
      some ((run (fun s e => (fLoop (e + off) s).map Prod.snd) s es).map fun s => (0, s)) := by
  have hloop := forEachSafe_eq hf [] h hfuel
  unfold gElmLoop
  rwa [h.path.first]

/-- What is called with the addresses. -/
def traced (a : ℕ) (s : Links × List ℕ) : Except Unit (ℤ × Links × List ℕ) := .ok (0, s.1, s.2 ++ [a])

theorem traced_ownLink (g : ℕ → ℕ) : OwnLink Prod.fst (fun e => traced (g e)) pHead :=
  fun _ _ _ _ h => ⟨rfl, .inl h⟩

theorem run_traced (g : ℕ → ℕ) (t : List ℕ) :
    run (fun s e => (traced (g e) s).map Prod.snd) (l, t) es = .ok (l, t ++ es.map g) := by
  induction es generalizing t with
  | nil => rw [List.map_nil, List.append_nil, run]
  | cons e es ih =>
      rw [run, List.map_cons, List.append_cons]
      exact ih (t ++ [g e])

/-- The addresses are right where nothing is added, or there is no element. -/
theorem callsBases_iff (h : l.Ring pHead (bases.map (· + off))) :
    CallsBases pHead off l bases ↔ off = 0 ∨ bases = [] := by
  constructor
  · intro hcalls
    have hright := hcalls (List ℕ) traced (traced_ownLink _) [] (bases.length + 1) (Nat.lt_succ_self _)
    have hloop := gElmLoop_eq traced (traced_ownLink (· + off)) (s := (l, [])) h
      (Nat.lt_succ_self _)
    have hbases : run (fun s a => (traced a s).map Prod.snd) (l, []) bases =
        .ok (l, [] ++ bases.map id) := run_traced id []
    rw [List.length_map, hright, hbases, run_traced (· + off)] at hloop
    have hmap : bases.map id = (bases.map (· + off)).map (· + off) :=
      congrArg (fun r : ℤ × Links × List ℕ => r.2.2) (Except.ok.inj (Option.some.inj hloop))
    cases bases with
    | nil => exact .inr rfl
    | cons a bases =>
        left
        have ha : a = a + off + off := (List.cons.inj hmap).1
        omega
  · rintro (rfl | rfl)
    · intro τ fLoop hf t fuel hfuel
      have hmap : bases.map (· + 0) = bases := List.map_id bases
      rw [hmap] at h
      exact gElmLoop_eq _ hf h hfuel
    · intro τ fLoop _ t fuel hfuel
      obtain ⟨fuel, rfl⟩ := Nat.exists_eq_add_one_of_ne_zero (Nat.ne_of_gt hfuel)
      unfold gElmLoop forEachSafe
      rw [if_pos h.path.1]
      rfl

end PaxosSolutions
