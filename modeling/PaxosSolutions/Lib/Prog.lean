import PaxosSolutions.Lib.Run

/-!
# Programs with errors and faults

A program on a state answers with a result or an error, and keeps the state it
has come to in both cases, or it stops on a fault. One program follows another
through a map of the states if it does the same on the mapped states, as long as
the first one has no fault. Both this and what a program keeps go through
sequences and loops.
-/
namespace PaxosSolutions.Lib
variable {σ φ ε : Type} {α β : Type}

abbrev Prog (σ φ ε : Type) := ExceptT ε (StateT σ (Except φ))

def perform (p : Prog σ φ ε α) (s : σ) : Except φ (Except ε α × σ) := p.run.run s

/-- Nothing is left of the state after a fault. -/
def fault (f : φ) : Prog σ φ ε α := ExceptT.mk fun _ => .error f

/-- What a bind does with the result of its first program. -/
def andThen (f : α → Prog σ φ ε β) : Except ε α × σ → Except φ (Except ε β × σ)
  | (.ok a, s) => perform (f a) s
  | (.error e, s) => .ok (.error e, s)

variable {p : Prog σ φ ε α} {f : α → Prog σ φ ε β} {s t : σ}

@[simp] theorem perform_pure (a : α) : perform (pure a : Prog σ φ ε α) s = .ok (.ok a, s) := rfl

@[simp] theorem perform_throw (e : ε) : perform (throw e : Prog σ φ ε α) s = .ok (.error e, s) := rfl

@[simp] theorem perform_fault (x : φ) : perform (fault x : Prog σ φ ε α) s = .error x := rfl

@[simp] theorem perform_get : perform (get : Prog σ φ ε σ) s = .ok (.ok s, s) := rfl

@[simp] theorem perform_modify (g : σ → σ) :
    perform (modify g : Prog σ φ ε Unit) s = .ok (.ok (), g s) := rfl

theorem perform_bind : perform (p >>= f) s = (perform p s).bind (andThen f) := by
  simp only [perform, ExceptT.run_bind, StateT.run_bind]
  change (p.run.run s).bind _ = _
  refine congrArg _ (funext fun x => ?_)
  obtain ⟨r, t⟩ := x
  cases r <;> rfl

theorem perform_bind_ok {r : Except ε β} (h : perform (p >>= f) s = .ok (r, t)) :
    (∃ a u, perform p s = .ok (.ok a, u) ∧ perform (f a) u = .ok (r, t)) ∨
      ∃ e, perform p s = .ok (.error e, t) ∧ r = .error e := by
  rw [perform_bind] at h
  obtain ⟨⟨x, u⟩, hx, h⟩ := except_bind_ok h
  cases x with
  | ok a => exact .inl ⟨a, u, hx, h⟩
  | error e =>
      cases h
      exact .inr ⟨e, hx, rfl⟩

theorem perform_bind_of_ok {a : α} (h : perform p s = .ok (.ok a, t)) :
    perform (p >>= f) s = perform (f a) t := by
  rw [perform_bind, h]
  rfl

theorem perform_bind_of_error {e : ε} (h : perform p s = .ok (.error e, t)) :
    perform (p >>= f) s = .ok (.error e, t) := by
  rw [perform_bind, h]
  rfl

/-! ### What a program keeps -/

/-- From states of `P` the program comes to a result of `Q`, or to an error in a
state of `E`. -/
def Gives (P : σ → Prop) (p : Prog σ φ ε α) (Q : α → σ → Prop) (E : σ → Prop) : Prop :=
  ∀ s, P s → (∀ a t, perform p s = .ok (.ok a, t) → Q a t) ∧ ∀ e t, perform p s = .ok (.error e, t) → E t

variable {P : σ → Prop} {Q : α → σ → Prop} {R : β → σ → Prop} {E : σ → Prop}

theorem Gives.bind (h : Gives P p Q E) (hf : ∀ a, Gives (Q a) (f a) R E) :
    Gives P (p >>= f) R E := by
  intro s hs
  constructor
  · intro b t hb
    rcases perform_bind_ok hb with ⟨a, u, hp, hf'⟩ | ⟨e, _, he⟩
    · exact (hf a u ((h s hs).1 a u hp)).1 b t hf'
    · cases he
  · intro e t he
    rcases perform_bind_ok he with ⟨a, u, hp, hf'⟩ | ⟨e', hp, _⟩
    · exact (hf a u ((h s hs).1 a u hp)).2 e t hf'
    · exact (h s hs).2 e' t hp

theorem Gives.pure {a : α} : Gives (Q a) (pure a : Prog σ φ ε α) Q E := by
  intro s hs
  constructor
  · intro b t hb
    cases hb
    exact hs
  · intro e t he
    cases he

theorem Gives.throw {e : ε} : Gives E (throw e : Prog σ φ ε α) Q E := by
  intro s hs
  constructor
  · intro b t hb
    cases hb
  · intro e t he
    cases he
    exact hs

theorem Gives.fault {x : φ} : Gives P (fault x : Prog σ φ ε α) Q E := by
  intro s hs
  constructor
  · intro b t hb
    cases hb
  · intro e t he
    cases he

theorem Gives.modify {g : σ → σ} {Q : PUnit → σ → Prop} (h : ∀ s, P s → Q ⟨⟩ (g s)) :
    Gives P (modify g : Prog σ φ ε PUnit) Q E := by
  intro s hs
  constructor
  · intro b t hb
    cases hb
    exact h s hs
  · intro e t he
    cases he

theorem Gives.weaken {P' : σ → Prop} {Q' : α → σ → Prop} {E' : σ → Prop} (h : Gives P p Q E)
    (hP : ∀ s, P' s → P s) (hQ : ∀ a s, Q a s → Q' a s) (hE : ∀ s, E s → E' s) :
    Gives P' p Q' E' := by
  intro s hs
  obtain ⟨hok, herr⟩ := h s (hP s hs)
  exact ⟨fun a t ha => hQ a t (hok a t ha), fun e t he => hE t (herr e t he)⟩

theorem Gives.forM {ι : Type} {f : ι → Prog σ φ ε PUnit} {l : List ι}
    (h : ∀ i ∈ l, Gives P (f i) (fun _ => P) P) : Gives P (l.forM f) (fun _ => P) P := by
  induction l with
  | nil => exact Gives.pure (Q := fun _ => P)
  | cons i l ih =>
      refine (h i List.mem_cons_self).bind fun _ => ih fun j hj => h j (List.mem_cons_of_mem i hj)

/-- A loop whose assertion says what has been done so far. -/
theorem Gives.forMDone {ι : Type} {f : ι → Prog σ φ ε PUnit} {I : List ι → σ → Prop} (l : List ι)
    (h : ∀ done i rest, l = done ++ i :: rest →
      Gives (I done) (f i) (fun _ => I (done ++ [i])) E) :
    Gives (I []) (l.forM f) (fun _ => I l) E := by
  suffices hloop : ∀ rest done, l = done ++ rest →
      Gives (I done) (rest.forM f) (fun _ => I l) E from hloop l [] rfl
  intro rest
  induction rest with
  | nil =>
      intro done hl
      rw [List.append_nil] at hl
      subst hl
      exact Gives.pure (Q := fun _ => I l)
  | cons i rest ih =>
      intro done hl
      refine (h done i rest hl).bind fun _ => ?_
      exact ih (done ++ [i]) (by rw [hl, List.append_assoc]; rfl)

/-- A loop whose results are related to its inputs by `A`. -/
theorem Gives.mapM {ι : Type} {f : ι → Prog σ φ ε α} {A : ι → α → Prop} {l : List ι}
    (h : ∀ i ∈ l, Gives P (f i) (fun a s => P s ∧ A i a) E) :
    Gives P (l.mapM f) (fun as s => P s ∧ List.Forall₂ A l as) E := by
  induction l with
  | nil =>
      intro s hs
      constructor
      · intro as t has
        cases has
        exact ⟨hs, .nil⟩
      · intro e t he
        cases he
  | cons i l ih =>
      rw [List.mapM_cons]
      refine (h i List.mem_cons_self).bind fun a => ?_
      have hrest := ih fun j hj => h j (List.mem_cons_of_mem i hj)
      intro s hs
      refine hrest.bind (fun as t ht => ?_) s hs.1
      constructor
      · intro bs u hbs
        cases hbs
        exact ⟨ht.1, .cons hs.2 ht.2⟩
      · intro e u he
        cases he

/-- It is enough to look at each state by itself. -/
theorem Gives.each (h : ∀ s, P s → Gives (fun t => t = s) p Q E) : Gives P p Q E :=
  fun s hs => h s hs s rfl

theorem Gives.of_perform {a : α} (h : perform p s = .ok (.ok a, t)) (hQ : Q a t) :
    Gives (fun u => u = s) p Q E := by
  intro u hu
  subst hu
  constructor
  · intro b v hb
    rw [h] at hb
    cases hb
    exact hQ
  · intro e v he
    rw [h] at he
    cases he

theorem Gives.of_fault {x : φ} (h : perform p s = .error x) : Gives (fun u => u = s) p Q E := by
  intro u hu
  subst hu
  constructor
  · intro b v hb
    rw [h] at hb
    cases hb
  · intro e v he
    rw [h] at he
    cases he

theorem Gives.getBind {f : σ → Prog σ φ ε α} (h : ∀ s, P s → Gives (fun t => t = s) (f s) Q E) :
    Gives P (MonadState.get >>= f) Q E := by
  intro s hs
  rw [perform_bind_of_ok perform_get]
  exact h s hs s rfl

/-! ### Programs that do the same -/

/-- Where `p` has no fault, `q` does the same on the mapped state, with results
of `Q`. -/
def Follows (I : σ → Prop) (m : σ → σ) (p q : Prog σ φ ε α) (Q : α → Prop) : Prop :=
  ∀ s r t, I s → perform p s = .ok (r, t) →
    perform q (m s) = .ok (r, m t) ∧ I t ∧ ∀ a, r = .ok a → Q a

variable {I : σ → Prop} {m : σ → σ} {q : Prog σ φ ε α} {g : α → Prog σ φ ε β} {A : α → Prop}
  {B : β → Prop}

theorem Follows.bind (h : Follows I m p q A) (hf : ∀ a, A a → Follows I m (f a) (g a) B) :
    Follows I m (p >>= f) (q >>= g) B := by
  intro s r t hs hr
  rcases perform_bind_ok hr with ⟨a, u, hp, hf'⟩ | ⟨e, hp, rfl⟩
  · obtain ⟨hq, hu, hA⟩ := h s _ u hs hp
    rw [perform_bind_of_ok hq]
    exact hf a (hA a rfl) u r t hu hf'
  · obtain ⟨hq, ht, _⟩ := h s _ t hs hp
    refine ⟨perform_bind_of_error hq, ht, ?_⟩
    intro b hb
    cases hb

theorem Follows.pure {a : α} (h : A a) : Follows I m (pure a) (pure a : Prog σ φ ε α) A := by
  intro s r t hs hr
  cases hr
  refine ⟨rfl, hs, ?_⟩
  intro b hb
  cases hb
  exact h

theorem Follows.throw {e : ε} : Follows I m (throw e) (throw e : Prog σ φ ε α) A := by
  intro s r t hs hr
  cases hr
  refine ⟨rfl, hs, ?_⟩
  intro b hb
  cases hb

theorem Follows.fault {x : φ} : Follows I m (fault x) q A := by
  intro s r t hs hr
  cases hr

theorem Follows.modify {f g : σ → σ} {A : Unit → Prop} (hI : ∀ s, I s → I (f s))
    (hm : ∀ s, I s → m (f s) = g (m s)) (hA : A ()) :
    Follows I m (modify f) (modify g : Prog σ φ ε Unit) A := by
  intro s r t hs hr
  cases hr
  refine ⟨?_, hI s hs, ?_⟩
  · rw [perform_modify, hm s hs]
  · intro b _
    exact hA

/-- Reading the state gives each program its own. -/
theorem Follows.getBind {f g : σ → Prog σ φ ε α} (h : ∀ s, Follows I m (f s) (g (m s)) A) :
    Follows I m (get >>= f) (get >>= g) A := by
  intro s r t hs hr
  rw [perform_bind_of_ok perform_get] at hr ⊢
  exact h s s r t hs hr

theorem Follows.weaken {A' : α → Prop} (h : Follows I m p q A) (hA : ∀ a, A a → A' a) :
    Follows I m p q A' := by
  intro s r t hs hr
  obtain ⟨hq, ht, ha⟩ := h s r t hs hr
  exact ⟨hq, ht, fun a hra => hA a (ha a hra)⟩

theorem Follows.forM {ι : Type} {f g : ι → Prog σ φ ε PUnit} {l : List ι}
    (h : ∀ i ∈ l, Follows I m (f i) (g i) fun _ => True) :
    Follows I m (l.forM f) (l.forM g) fun _ => True := by
  induction l with
  | nil => exact Follows.pure trivial
  | cons i l ih =>
      refine (h i List.mem_cons_self).bind fun _ _ => ?_
      exact ih fun j hj => h j (List.mem_cons_of_mem i hj)

theorem Follows.mapM {ι : Type} {f g : ι → Prog σ φ ε α} {l : List ι}
    (h : ∀ i ∈ l, Follows I m (f i) (g i) fun _ => True) :
    Follows I m (l.mapM f) (l.mapM g) fun _ => True := by
  induction l with
  | nil => exact Follows.pure trivial
  | cons i l ih =>
      rw [List.mapM_cons, List.mapM_cons]
      refine (h i List.mem_cons_self).bind fun a _ => ?_
      refine (ih fun j hj => h j (List.mem_cons_of_mem i hj)).bind fun as _ => ?_
      exact Follows.pure trivial

end PaxosSolutions.Lib
