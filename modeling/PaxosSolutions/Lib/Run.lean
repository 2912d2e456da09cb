import Mathlib.Data.List.Basic

/-!
# Runs of a step function

A step function takes an input to the next state or stops on an error. `run`
feeds it a row of inputs, and `Along` says that every input of a run meets a
condition on the state it is taken in. What each step keeps under the
condition holds after every run that meets it.
-/
namespace PaxosSolutions.Lib
variable {σ ι ε : Type} {step : σ → ι → Except ε σ}

def run (step : σ → ι → Except ε σ) : σ → List ι → Except ε σ
  | s, [] => .ok s
  | s, i :: is => (step s i).bind fun t => run step t is

theorem except_bind_ok {α β : Type} {x : Except ε α} {f : α → Except ε β} {b : β}
    (h : x >>= f = .ok b) : ∃ a, x = .ok a ∧ f a = .ok b := by
  cases x with
  | error e => cases h
  | ok a => exact ⟨a, rfl, h⟩

theorem except_map_ok {α β : Type} {x : Except ε α} {f : α → β} {b : β}
    (h : x.map f = .ok b) : ∃ a, x = .ok a ∧ f a = b := by
  cases x with
  | error e => cases h
  | ok a => exact ⟨a, rfl, Except.ok.inj h⟩

theorem except_map_error {α β : Type} {x : Except ε α} {f : α → β} {e : ε}
    (h : x.map f = .error e) : x = .error e := by
  cases x with
  | error _ => exact congrArg Except.error (Except.error.inj h)
  | ok _ => cases h

theorem option_any {α : Type} {o : Option α} {p : α → Bool} (h : o.any p = true) :
    ∃ a, o = some a ∧ p a = true := by
  cases o with
  | none => cases h
  | some a => exact ⟨a, rfl, h⟩

/-- A computed test of the result is one of the state that is reached. -/
theorem except_any {α : Type} {x : Except ε α} {p : α → Bool} (h : x.toOption.any p = true) :
    ∃ a, x = .ok a ∧ p a = true := by
  cases x with
  | error _ => cases h
  | ok a => exact ⟨a, rfl, h⟩

/-- Every input meets `C` in the state it is taken in. -/
def Along (step : σ → ι → Except ε σ) (C : σ → ι → Prop) : σ → List ι → Prop
  | _, [] => True
  | s, i :: is => C s i ∧ ∀ t, step s i = .ok t → Along step C t is

theorem run_cons_ok {s t : σ} {i : ι} {is : List ι} (h : run step s (i :: is) = .ok t) :
    ∃ u, step s i = .ok u ∧ run step u is = .ok t := by
  unfold run at h
  cases hs : step s i with
  | error e => simp [hs, Except.bind] at h
  | ok u =>
      rw [hs] at h
      exact ⟨u, rfl, h⟩

theorem run_cons_error {s : σ} {i : ι} {is : List ι} {e : ε}
    (h : run step s (i :: is) = .error e) :
    step s i = .error e ∨ ∃ u, step s i = .ok u ∧ run step u is = .error e := by
  unfold run at h
  cases hs : step s i with
  | error x =>
      rw [hs] at h
      cases h
      exact .inl rfl
  | ok u =>
      rw [hs] at h
      exact .inr ⟨u, rfl, h⟩

theorem run_append {s t u : σ} {is js : List ι} (h : run step s is = .ok t)
    (hu : run step t js = .ok u) : run step s (is ++ js) = .ok u := by
  induction is generalizing s with
  | nil =>
      cases h
      exact hu
  | cons i is ih =>
      obtain ⟨v, hv, h⟩ := run_cons_ok h
      rw [List.cons_append]
      unfold run
      rw [hv]
      exact ih h

/-- A run along `C` keeps what its steps keep. -/
theorem run_invariant {C : σ → ι → Prop} {I : σ → Prop}
    (hstep : ∀ s i t, I s → C s i → step s i = .ok t → I t) {s t : σ} {is : List ι}
    (hs : I s) (hC : Along step C s is) (h : run step s is = .ok t) : I t := by
  induction is generalizing s with
  | nil =>
      cases h
      exact hs
  | cons i is ih =>
      obtain ⟨u, hu, h⟩ := run_cons_ok h
      exact ih (hstep s i u hs hC.1 hu) (hC.2 u hu) h

/-- A run along `C` stops only on the errors its steps stop on. -/
theorem run_error {C : σ → ι → Prop} {I : σ → Prop} {E : ε → Prop}
    (hstep : ∀ s i t, I s → C s i → step s i = .ok t → I t)
    (herr : ∀ s i e, I s → C s i → step s i = .error e → E e) {s : σ} {is : List ι} {e : ε}
    (hs : I s) (hC : Along step C s is) (h : run step s is = .error e) : E e := by
  induction is generalizing s with
  | nil => cases h
  | cons i is ih =>
      rcases run_cons_error h with h | ⟨u, hu, h⟩
      · exact herr s i e hs hC.1 h
      · exact ih (hstep s i u hs hC.1 hu) (hC.2 u hu) h

theorem Along.weaken {C D : σ → ι → Prop} {s : σ} {is : List ι} (h : Along step C s is)
    (hCD : ∀ s i, C s i → D s i) : Along step D s is := by
  induction is generalizing s with
  | nil => trivial
  | cons i is ih => exact ⟨hCD s i h.1, fun t ht => ih (h.2 t ht)⟩

theorem Along.trivial {s : σ} {is : List ι} : Along step (fun _ _ => True) s is := by
  induction is generalizing s with
  | nil => exact True.intro
  | cons i is ih => exact ⟨True.intro, fun _ _ => ih⟩

/-- The last input of a row is taken in the state the others reach. -/
theorem Along.last {C : σ → ι → Prop} {s t : σ} {is : List ι} {i : ι}
    (h : Along step C s (is ++ [i])) (ht : run step s is = .ok t) : C t i := by
  induction is generalizing s with
  | nil =>
      cases ht
      exact h.1
  | cons j is ih =>
      obtain ⟨u, hu, ht⟩ := run_cons_ok ht
      exact ih (h.2 u hu) ht

/-- The rest of a row is taken in the state the others reach. -/
theorem Along.drop {C : σ → ι → Prop} {s t : σ} {is js : List ι} (h : Along step C s (is ++ js))
    (ht : run step s is = .ok t) : Along step C t js := by
  induction is generalizing s with
  | nil =>
      cases ht
      exact h
  | cons j is ih =>
      obtain ⟨u, hu, ht⟩ := run_cons_ok ht
      exact ih (h.2 u hu) ht

theorem Along.take {C : σ → ι → Prop} {s : σ} {is js : List ι} (h : Along step C s (is ++ js)) :
    Along step C s is := by
  induction is generalizing s with
  | nil => trivial
  | cons j is ih => exact ⟨h.1, fun t ht => ih (h.2 t ht)⟩

/-- A condition along a row is one on every input in the state that the inputs before reach. -/
theorem along_iff {C : σ → ι → Prop} {s : σ} {is : List ι} :
    Along step C s is ↔ ∀ js j ks t, is = js ++ j :: ks → run step s js = .ok t → C t j := by
  constructor
  · intro h js j ks t hsplit ht
    subst hsplit
    exact (h.drop ht).1
  · intro h
    induction is generalizing s with
    | nil => trivial
    | cons i is ih =>
        refine ⟨h [] i is s rfl rfl, fun t ht => ih ?_⟩
        intro js j ks u hsplit hu
        refine h (i :: js) j ks u (by rw [hsplit]; rfl) ?_
        unfold run
        rw [ht]
        exact hu

/-- A row that runs through runs through up to every place. -/
theorem run_take {s t : σ} {is js : List ι} (h : run step s (is ++ js) = .ok t) :
    ∃ u, run step s is = .ok u ∧ run step u js = .ok t := by
  induction is generalizing s with
  | nil => exact ⟨s, rfl, h⟩
  | cons i is ih =>
      obtain ⟨v, hv, h⟩ := run_cons_ok h
      obtain ⟨u, hu, h⟩ := ih h
      refine ⟨u, ?_, h⟩
      unfold run
      rw [hv]
      exact hu

/-- Where each step is right after exactly if it meets `C`, the states of a run are all
right if and only if the run is along `C`. -/
theorem reached_iff_along {C : σ → ι → Prop} {K R : σ → Prop}
    (hkeep : ∀ s i t, K s → step s i = .ok t → K t)
    (hright : ∀ s i t, K s → R s → step s i = .ok t → (R t ↔ C s i)) {s t : σ} {is : List ι}
    (hs : K s) (hr : R s) (hrun : run step s is = .ok t) :
    (∀ js ks u, is = js ++ ks → run step s js = .ok u → R u) ↔ Along step C s is := by
  induction is generalizing s with
  | nil =>
      refine iff_of_true ?_ True.intro
      intro js ks u hsplit hu
      obtain ⟨rfl, -⟩ := List.append_eq_nil_iff.mp hsplit.symm
      cases hu
      exact hr
  | cons i is ih =>
      obtain ⟨v, hv, hrun⟩ := run_cons_ok hrun
      have hstep := hright s i v hs hr hv
      constructor
      · intro h
        have hone : run step s [i] = .ok v := by
          unfold run
          rw [hv]
          rfl
        have hrv : R v := h [i] is v rfl hone
        refine ⟨hstep.mp hrv, fun u hu => ?_⟩
        cases hv.symm.trans hu
        refine (ih (hkeep s i v hs hv) hrv hrun).mp ?_
        intro js ks u hsplit hu
        refine h (i :: js) ks u (by rw [hsplit]; rfl) ?_
        unfold run
        rw [hv]
        exact hu
      · intro h js ks u hsplit hu
        have hrv := hstep.mpr h.1
        cases js with
        | nil =>
            cases hu
            exact hr
        | cons j js =>
            obtain ⟨rfl, hrest⟩ := List.cons.inj hsplit
            obtain ⟨w, hw, hu⟩ := run_cons_ok hu
            cases hv.symm.trans hw
            exact (ih (hkeep s i v hs hv) hrv hrun).mpr (h.2 v hv) js ks u hrest hu

/-- Where a step goes through to a state that is right exactly if it meets `C`, a run goes
through right states if and only if it is along `C`. -/
theorem goes_iff_along {C : σ → ι → Prop} {K R : σ → Prop}
    (hkeep : ∀ s i t, K s → R s → step s i = .ok t → K t)
    (hright : ∀ s i, K s → R s → ((∃ t, step s i = .ok t ∧ R t) ↔ C s i)) {s : σ} {is : List ι}
    (hs : K s) (hr : R s) :
    (∀ js ks, is = js ++ ks → ∃ u, run step s js = .ok u ∧ R u) ↔ Along step C s is := by
  induction is generalizing s with
  | nil =>
      refine iff_of_true ?_ True.intro
      intro js ks hsplit
      obtain ⟨rfl, -⟩ := List.append_eq_nil_iff.mp hsplit.symm
      exact ⟨s, rfl, hr⟩
  | cons i is ih =>
      have hstep := hright s i hs hr
      constructor
      · intro h
        obtain ⟨v, hv, hrv⟩ := h [i] is rfl
        obtain ⟨u, hu, hv⟩ := run_cons_ok hv
        cases hv
        refine ⟨hstep.mp ⟨v, hu, hrv⟩, fun t ht => ?_⟩
        cases hu.symm.trans ht
        refine (ih (hkeep s i v hs hr hu) hrv).mp ?_
        intro js ks hsplit
        obtain ⟨w, hw, hrw⟩ := h (i :: js) ks (by rw [hsplit]; rfl)
        obtain ⟨x, hx, hw⟩ := run_cons_ok hw
        cases hu.symm.trans hx
        exact ⟨w, hw, hrw⟩
      · intro h js ks hsplit
        obtain ⟨v, hv, hrv⟩ := hstep.mpr h.1
        cases js with
        | nil => exact ⟨s, rfl, hr⟩
        | cons j js =>
            obtain ⟨rfl, hrest⟩ := List.cons.inj hsplit
            obtain ⟨u, hu, hru⟩ := (ih (hkeep s i v hs hr hv) hrv).mpr (h.2 v hv) js ks hrest
            refine ⟨u, ?_, hru⟩
            unfold run
            rw [hv]
            exact hu

theorem Along.of_forall {C : σ → ι → Prop} {s : σ} {is : List ι} (h : ∀ i ∈ is, ∀ s, C s i) :
    Along step C s is := by
  induction is generalizing s with
  | nil => trivial
  | cons i is ih =>
      exact ⟨h i List.mem_cons_self s, fun t _ => ih fun j hj => h j (List.mem_cons_of_mem i hj)⟩

/-! ### Results -/

/-- A result is `P`, or an error is `E`. -/
def Result {α : Type} (E : ε → Prop) (P : α → Prop) : Except ε α → Prop
  | .ok a => P a
  | .error e => E e

section
variable {α β : Type} {E : ε → Prop} {P : α → Prop} {Q : β → Prop} {x : Except ε α}

theorem Result.bind {f : α → Except ε β} (hx : Result E P x) (hf : ∀ a, P a → Result E Q (f a)) :
    Result E Q (x.bind f) := by
  cases x with
  | error e => exact hx
  | ok a => exact hf a hx

theorem Result.map {f : α → β} (hx : Result E P x) (hf : ∀ a, P a → Q (f a)) :
    Result E Q (x.map f) := by
  cases x with
  | error e => exact hx
  | ok a => exact hf a hx

theorem Result.along {C : σ → ι → Prop} {I : σ → Prop}
    (hstep : ∀ s i, I s → C s i → Result E I (step s i)) {s : σ} {is : List ι}
    (hs : I s) (hC : Along step C s is) : Result E I (run step s is) := by
  induction is generalizing s with
  | nil => exact hs
  | cons i is ih =>
      have hi := hstep s i hs hC.1
      unfold run
      cases hr : step s i with
      | error e =>
          rw [hr] at hi
          exact hi
      | ok t =>
          rw [hr] at hi
          exact ih hi (hC.2 t hr)

end

instance decidableAlong {C : σ → ι → Prop} [∀ s i, Decidable (C s i)] (s : σ) (is : List ι) :
    Decidable (Along step C s is) :=
  match is with
  | [] => .isTrue trivial
  | i :: is =>
      match hs : step s i with
      | .ok t =>
          have := decidableAlong (C := C) t is
          decidable_of_iff (C s i ∧ Along step C t is) (by simp [Along, hs])
      | .error _ => decidable_of_iff (C s i) (by simp [Along, hs])

end PaxosSolutions.Lib
