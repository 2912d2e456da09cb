import Mathlib.Data.List.Basic

/-!
# Handlers with output

A handler reads and writes a state, puts out events in order and may stop on
an error. What it did before the error stays: the state reached and the
events put out are part of its outcome.

`Does R P x Q` is the rule format for them. `R` relates the states before and
after together with the events in between and must be compositional, so a
safety property, a simulation and a frame condition are all instances. `P` is
known before, `Q` after a normal return. The rules follow the monad.
-/
namespace PaxosSolutions.Lib

/-- What running a handler gives: its result or error, the state, the events. -/
structure Outcome (σ ω ε α : Type) where
  val : Except ε α
  st : σ
  out : List ω

def Handler (σ ω ε α : Type) : Type := σ → Outcome σ ω ε α

namespace Handler
variable {σ ω ε α β : Type}

protected def pure (a : α) : Handler σ ω ε α := fun s => ⟨.ok a, s, []⟩

/-- An error skips the rest and keeps what was done. -/
protected def bind (x : Handler σ ω ε α) (f : α → Handler σ ω ε β) : Handler σ ω ε β := fun s =>
  match (x s).val with
  | .ok a => ⟨(f a (x s).st).val, (f a (x s).st).st, (x s).out ++ (f a (x s).st).out⟩
  | .error e => ⟨.error e, (x s).st, (x s).out⟩

instance : Monad (Handler σ ω ε) where
  pure := Handler.pure
  bind := Handler.bind

def read : Handler σ ω ε σ := fun s => ⟨.ok s, s, []⟩
def modify (f : σ → σ) : Handler σ ω ε Unit := fun s => ⟨.ok (), f s, []⟩
def emit (o : ω) : Handler σ ω ε Unit := fun s => ⟨.ok (), s, [o]⟩
def fail (e : ε) : Handler σ ω ε α := fun s => ⟨.error e, s, []⟩

/-- Stops with `e` unless `c` holds. -/
def require (c : Prop) [Decidable c] (e : ε) : Handler σ ω ε Unit :=
  if c then pure () else fail e

def when (c : Prop) [Decidable c] (x : Handler σ ω ε Unit) : Handler σ ω ε Unit :=
  if c then x else pure ()

def each {ι : Type} (f : ι → Handler σ ω ε Unit) : List ι → Handler σ ω ε Unit
  | [] => pure ()
  | i :: is => do f i; each f is

@[simp] theorem pure_apply (a : α) (s : σ) :
    (pure a : Handler σ ω ε α) s = ⟨.ok a, s, []⟩ := rfl

theorem bind_apply (x : Handler σ ω ε α) (f : α → Handler σ ω ε β) (s : σ) :
    (x >>= f) s = Handler.bind x f s := rfl

instance : LawfulMonad (Handler σ ω ε) := by
  refine LawfulMonad.mk' _ (fun x => ?_) (fun a f => rfl) fun x f g => ?_
  · funext s
    change Handler.bind x Handler.pure s = x s
    unfold Handler.bind Handler.pure
    cases hx : x s with
    | mk val st out => cases val <;> simp
  · funext s
    change Handler.bind (Handler.bind x f) g s = Handler.bind x (fun a => Handler.bind (f a) g) s
    unfold Handler.bind
    cases x s with
    | mk val st out =>
        cases val with
        | error e => rfl
        | ok a =>
            simp only []
            cases f a st with
            | mk val st out => cases val <;> simp

@[simp] theorem read_bind (f : σ → Handler σ ω ε β) (s : σ) : (read >>= f) s = f s s := rfl

@[simp] theorem modify_bind (g : σ → σ) (f : Unit → Handler σ ω ε β) (s : σ) :
    (modify g >>= f) s = f () (g s) := rfl

@[simp] theorem modify_apply (g : σ → σ) (s : σ) :
    (modify g : Handler σ ω ε Unit) s = ⟨.ok (), g s, []⟩ := rfl

@[simp] theorem emit_apply (o : ω) (s : σ) :
    (emit o : Handler σ ω ε Unit) s = ⟨.ok (), s, [o]⟩ := rfl

@[simp] theorem fail_apply (e : ε) (s : σ) :
    (fail e : Handler σ ω ε α) s = ⟨.error e, s, []⟩ := rfl

theorem bind_of_ok {x : Handler σ ω ε α} {f : α → Handler σ ω ε β} {s t : σ} {a : α} {o : List ω}
    (h : x s = ⟨.ok a, t, o⟩) :
    (x >>= f) s = ⟨(f a t).val, (f a t).st, o ++ (f a t).out⟩ := by
  simp only [bind_apply, Handler.bind, h]

theorem bind_of_error {x : Handler σ ω ε α} {f : α → Handler σ ω ε β} {s t : σ} {e : ε}
    {o : List ω} (h : x s = ⟨.error e, t, o⟩) : (x >>= f) s = ⟨.error e, t, o⟩ := by
  simp only [bind_apply, Handler.bind, h]

theorem require_of {c : Prop} [Decidable c] (h : c) (e : ε) :
    (require c e : Handler σ ω ε Unit) = pure () := if_pos h

theorem require_of_not {c : Prop} [Decidable c] (h : ¬ c) (e : ε) :
    (require c e : Handler σ ω ε Unit) = fail e := if_neg h

@[simp] theorem pure_bind' (a : α) (f : α → Handler σ ω ε β) (s : σ) :
    ((pure a : Handler σ ω ε α) >>= f) s = f a s := rfl

@[simp] theorem fail_bind (e : ε) (f : α → Handler σ ω ε β) (s : σ) :
    ((fail e : Handler σ ω ε α) >>= f) s = ⟨.error e, s, []⟩ := rfl

/-- The handler returns from every state. -/
def Total (x : Handler σ ω ε α) : Prop := ∀ s, ∃ a t o, x s = ⟨.ok a, t, o⟩

namespace Total

theorem pure (a : α) : Total (pure a : Handler σ ω ε α) := fun s => ⟨a, s, [], rfl⟩

theorem bind {x : Handler σ ω ε α} {f : α → Handler σ ω ε β} (hx : Total x)
    (hf : ∀ a, Total (f a)) : Total (x >>= f) := by
  intro s
  obtain ⟨a, t, o, h⟩ := hx s
  obtain ⟨b, u, o', h'⟩ := hf a t
  exact ⟨b, u, o ++ o', by rw [bind_of_ok h, h']⟩

theorem read {f : σ → Handler σ ω ε β} (h : ∀ s, Total (f s)) : Total (Handler.read >>= f) :=
  fun s => h s s

theorem modify (g : σ → σ) : Total (modify g : Handler σ ω ε Unit) := fun s => ⟨(), g s, [], rfl⟩

theorem emit (o : ω) : Total (emit o : Handler σ ω ε Unit) := fun s => ⟨(), s, [o], rfl⟩

theorem ite {c : Prop} [Decidable c] {x y : Handler σ ω ε α} (hx : Total x) (hy : Total y) :
    Total (if c then x else y) := by
  split
  · exact hx
  · exact hy

theorem when {c : Prop} [Decidable c] {x : Handler σ ω ε Unit} (hx : Total x) :
    Total (when c x) := ite hx (pure ())

end Total

end Handler

/-- A relation over states and the events between them that every run of
nothing meets and that two runs in a row pass on. -/
structure Compositional {σ ω : Type} (R : σ → List ω → σ → Prop) : Prop where
  refl : ∀ s, R s [] s
  trans : ∀ {s o t o' u}, R s o t → R t o' u → R s (o ++ o') u

/-- Steps in a row with their events. -/
inductive Runs {σ ω : Type} (step : σ → List ω → σ → Prop) : σ → List ω → σ → Prop
  | refl (s : σ) : Runs step s [] s
  | tail {s o t o' u} : Runs step s o t → step t o' u → Runs step s (o ++ o') u

namespace Runs
variable {σ ω : Type} {step : σ → List ω → σ → Prop}

theorem single {s o t} (h : step s o t) : Runs step s o t := by
  simpa using Runs.tail (.refl s) h

theorem trans {s o t o' u} (h₁ : Runs step s o t) (h₂ : Runs step t o' u) :
    Runs step s (o ++ o') u := by
  induction h₂ with
  | refl => simpa using h₁
  | tail _ hs ih => simpa only [List.append_assoc] using Runs.tail ih hs

/-- What holds of the events of every step holds of all events. -/
theorem forall_out {s o t} {P : ω → Prop} (h : Runs step s o t)
    (hstep : ∀ {s o t}, step s o t → ∀ x ∈ o, P x) : ∀ x ∈ o, P x := by
  induction h with
  | refl => simp
  | tail _ hs ih => exact fun x hx => (List.mem_append.mp hx).elim (ih x) (hstep hs x)

/-- A property of the events so far and the state that holds at the start and
that every step keeps. -/
theorem invariant {s o t} {I : List ω → σ → Prop} (h : Runs step s o t) (h₀ : I [] s)
    (hstep : ∀ {o t o' u}, I o t → step t o' u → I (o ++ o') u) : I o t := by
  induction h with
  | refl => exact h₀
  | tail _ hs ih => exact hstep ih hs

theorem weaken {step' : σ → List ω → σ → Prop} {s o t} (h : Runs step s o t)
    (hstep : ∀ {s o t}, step s o t → step' s o t) : Runs step' s o t := by
  induction h with
  | refl => exact .refl _
  | tail _ hs ih => exact ih.tail (hstep hs)

/-- What the steps keep, as long as their events are in `P`, holds where every
step of such a row begins. -/
theorem along {s o t} {J : σ → Prop} {P : ω → Prop} (h : Runs step s o t) (h₀ : J s)
    (hP : ∀ x ∈ o, P x) (hstep : ∀ {s o t}, J s → (∀ x ∈ o, P x) → step s o t → J t) :
    J t ∧ Runs (fun s o t => J s ∧ (∀ x ∈ o, P x) ∧ step s o t) s o t := by
  induction h with
  | refl => exact ⟨h₀, .refl _⟩
  | tail _ hs ih =>
      obtain ⟨ht, hrow⟩ := ih fun x hx => hP x (List.mem_append_left _ hx)
      have ho := fun x hx => hP x (List.mem_append_right _ hx)
      exact ⟨hstep ht ho hs, hrow.tail ⟨ht, ho, hs⟩⟩

end Runs

/-- From a state with `P`, handler `x` moves along `R` and a normal return has
`Q`. One that stops on an error has put out what some move along `R` puts out;
the state it leaves behind is not used again. -/
def Does {σ ω ε α : Type} (R : σ → List ω → σ → Prop) (P : σ → Prop)
    (x : Handler σ ω ε α) (Q : α → σ → Prop) : Prop :=
  ∀ s, P s →
    (∀ a, (x s).val = .ok a → R s (x s).out (x s).st ∧ Q a (x s).st) ∧
    (∀ e, (x s).val = .error e → ∃ t, R s (x s).out t)

namespace Does
open Handler
variable {σ ω ε α β : Type} {R : σ → List ω → σ → Prop} {P P' : σ → Prop}

/-- A run of `x` that ends in `a`. -/
theorem of_run {x : Handler σ ω ε α} {Q : α → σ → Prop}
    (h : ∀ s, P s → ∃ a o t, x s = ⟨.ok a, t, o⟩ ∧ R s o t ∧ Q a t) : Does R P x Q := by
  intro s hs
  obtain ⟨a, o, t, hx, hR, hQ⟩ := h s hs
  simp only [hx]
  exact ⟨fun b hb => by cases hb; exact ⟨hR, hQ⟩, fun e he => by cases he⟩

theorem pure (hR : Compositional R) {a : α} {Q : α → σ → Prop} (h : ∀ s, P s → Q a s) :
    Does R P (pure a : Handler σ ω ε α) Q :=
  of_run fun s hs => ⟨a, [], s, rfl, hR.refl s, h s hs⟩

theorem bind (hR : Compositional R) {x : Handler σ ω ε α} {f : α → Handler σ ω ε β}
    {Q : α → σ → Prop} {Q' : β → σ → Prop} (hx : Does R P x Q)
    (hf : ∀ a, Does R (Q a) (f a) Q') : Does R P (x >>= f) Q' := by
  intro s hs
  obtain ⟨h₁, h₂⟩ := hx s hs
  rw [bind_apply]
  unfold Handler.bind
  cases hv : (x s).val with
  | error e => exact ⟨fun b hb => (by cases hb), fun e' _ => h₂ e hv⟩
  | ok a =>
      obtain ⟨hr, hq⟩ := h₁ a hv
      obtain ⟨h₃, h₄⟩ := hf a _ hq
      refine ⟨fun b hb => ?_, fun e he => ?_⟩
      · exact ⟨hR.trans hr (h₃ b hb).1, (h₃ b hb).2⟩
      · obtain ⟨t, ht⟩ := h₄ e he
        exact ⟨t, hR.trans hr ht⟩

theorem conseq {x : Handler σ ω ε α} {Q Q' : α → σ → Prop} (h : Does R P x Q)
    (hP : ∀ s, P' s → P s) (hQ : ∀ a s, Q a s → Q' a s) : Does R P' x Q' := by
  intro s hs
  obtain ⟨h₁, h₂⟩ := h s (hP s hs)
  exact ⟨fun a ha => ⟨(h₁ a ha).1, hQ a _ (h₁ a ha).2⟩, h₂⟩

theorem weaken {x : Handler σ ω ε α} {Q : α → σ → Prop} (h : Does R P x Q)
    (hP : ∀ s, P' s → P s) : Does R P' x Q :=
  h.conseq hP fun _ _ h => h

theorem read {f : σ → Handler σ ω ε β} {Q : β → σ → Prop}
    (h : ∀ s, P s → Does R (fun t => t = s) (f s) Q) : Does R P (Handler.read >>= f) Q := by
  intro s hs
  exact h s hs s rfl

theorem modify {g : σ → σ} {Q : Unit → σ → Prop} (h : ∀ s, P s → R s [] (g s) ∧ Q () (g s)) :
    Does R P (Handler.modify g : Handler σ ω ε Unit) Q :=
  of_run fun s hs => ⟨(), [], g s, rfl, h s hs⟩

theorem emit {o : ω} {Q : Unit → σ → Prop} (h : ∀ s, P s → R s [o] s ∧ Q () s) :
    Does R P (Handler.emit o : Handler σ ω ε Unit) Q :=
  of_run fun s hs => ⟨(), [o], s, rfl, h s hs⟩

theorem fail (hR : Compositional R) {e : ε} {Q : α → σ → Prop} :
    Does R P (Handler.fail e : Handler σ ω ε α) Q := by
  intro s _
  exact ⟨fun a ha => (by cases ha), fun e' _ => ⟨s, hR.refl s⟩⟩

theorem require (hR : Compositional R) {c : Prop} [Decidable c] {e : ε} {Q : Unit → σ → Prop}
    (h : ∀ s, P s → c → Q () s) : Does R P (Handler.require c e : Handler σ ω ε Unit) Q := by
  unfold Handler.require
  split
  · next hc => exact Does.pure hR fun s hs => h s hs hc
  · exact Does.fail hR

theorem ite {c : Prop} [Decidable c] {x y : Handler σ ω ε α} {Q : α → σ → Prop}
    (hx : c → Does R P x Q) (hy : ¬ c → Does R P y Q) : Does R P (if c then x else y) Q := by
  split
  · next hc => exact hx hc
  · next hc => exact hy hc

theorem when (hR : Compositional R) {c : Prop} [Decidable c] {x : Handler σ ω ε Unit}
    {Q : Unit → σ → Prop} (hx : c → Does R P x Q) (h : ¬ c → ∀ s, P s → Q () s) :
    Does R P (Handler.when c x) Q :=
  ite hx fun hc => Does.pure hR (h hc)

/-- The invariant `I` carries the loop from one element to the next. -/
theorem each (hR : Compositional R) {ι : Type} {f : ι → Handler σ ω ε Unit} {I : σ → Prop}
    {l : List ι} (h : ∀ i ∈ l, Does R I (f i) fun _ => I) :
    Does R I (Handler.each f l) fun _ => I := by
  induction l with
  | nil => exact Does.pure hR fun _ hs => hs
  | cons i is ih =>
      exact Does.bind hR (h i (by simp)) fun _ => ih fun j hj => h j (by simp [hj])

/-- What every turn of the loop finds out holds of all elements at its end. -/
theorem each_forall (hR : Compositional R) {ι : Type} {f : ι → Handler σ ω ε Unit}
    {I : σ → Prop} {C : ι → Prop} {l : List ι}
    (h : ∀ i ∈ l, Does R I (f i) fun _ s => I s ∧ C i) :
    Does R I (Handler.each f l) fun _ s => I s ∧ ∀ i ∈ l, C i := by
  induction l with
  | nil => exact Does.pure hR fun _ hs => ⟨hs, by simp⟩
  | cons i is ih =>
      refine Does.bind hR (h i (by simp)) fun _ => ?_
      intro s hs
      have hrest := ih fun j hj => h j (by simp [hj])
      have hall : Does R I (Handler.each f is) fun _ s => I s ∧ ∀ j ∈ i :: is, C j :=
        hrest.conseq (fun _ h => h) fun _ t ht => ⟨ht.1, by simpa using ⟨hs.2, ht.2⟩⟩
      exact hall s hs.1

end Does

end PaxosSolutions.Lib
