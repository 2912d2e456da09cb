import PaxosSolutions.Paxos.Dispatch
import PaxosSolutions.Paxos.System

/-!
# The life of one replica

What one replica puts out over its steps, on any inputs in any order. Its
state is gone once it has stopped on an error. Every replica of a cell lives
such a life, so what holds in every life holds in every run of a cell.
-/
namespace PaxosSolutions
open Lib

/-- The events so far and the state of a replica that began in `s₀`, on inputs
that meet `ok`. -/
inductive Life (ok : Paxos → Input → Env → Prop) (s₀ : Paxos) : List Out → Option Paxos → Prop
  | start : Life ok s₀ [] (some s₀)
  | step {o : List Out} {s : Paxos} {i : Input} {e : Env} (h : Life ok s₀ o (some s))
      (hok : ok s i e) (hv : (handle i e s).val = .ok ()) :
      Life ok s₀ (o ++ (handle i e s).out) (some (handle i e s).st)
  | stop {o : List Out} {s : Paxos} {i : Input} {e : Env} {x : Fault}
      (h : Life ok s₀ o (some s)) (hok : ok s i e) (hv : (handle i e s).val = .error x) :
      Life ok s₀ (o ++ (handle i e s).out) none

namespace Life
variable {ok : Paxos → Input → Env → Prop} {s₀ : Paxos} {o : List Out} {s : Option Paxos}

/-- What the rows of moves of the steps keep holds of all events and of some
protocol state, which is that of the replica unless it has stopped. -/
theorem invariant {I : List Out → Replica → Prop} (h₀ : I [] s₀.toReplica)
    (hstep : ∀ {o₀ ρ i e o p}, I o₀ ρ.toReplica → ok ρ i e →
      Moves ρ i e ρ.toReplica o p → I (o₀ ++ o) p)
    (h : Life ok s₀ o s) : ∃ p, I o p ∧ ∀ t ∈ s, t.toReplica = p := by
  induction h with
  | start => exact ⟨_, h₀, by simp⟩
  | @step o s i e h hok hv ih =>
      obtain ⟨p, hp, hs⟩ := ih
      rw [← hs s rfl] at hp
      have hgoes := ((handle_goes s i e s rfl).1 () hv).1
      exact ⟨_, hstep hp hok hgoes, by simp⟩
  | @stop o s i e x h hok hv ih =>
      obtain ⟨p, hp, hs⟩ := ih
      rw [← hs s rfl] at hp
      obtain ⟨t, ht⟩ := (handle_goes s i e s rfl).2 x hv
      exact ⟨_, hstep hp hok ht, by simp⟩

end Life

/-- What replica `j` has put out. -/
def Sys.outs (S : Sys) (j : ℕ) : List Out :=
  S.log.filterMap fun x => if x.1 = j then some x.2 else none

theorem Sys.mem_outs {S : Sys} {j : ℕ} {x : Out} : x ∈ S.outs j ↔ (j, x) ∈ S.log := by
  unfold outs
  rw [List.mem_filterMap]
  constructor
  · rintro ⟨⟨s, y⟩, hm, h⟩
    simp only [Option.ite_none_right_eq_some, Option.some.injEq] at h
    obtain ⟨rfl, rfl⟩ := h
    exact hm
  · exact fun h => ⟨_, h, by simp⟩

theorem Sys.outs_append {S : Sys} {srv : ℕ → Paxos} {up : ℕ → Bool} {s : ℕ} (o : List Out) (j : ℕ) :
    Sys.outs ⟨srv, up, S.log ++ o.map fun x => (s, x)⟩ j = S.outs j ++ if s = j then o else [] := by
  unfold outs
  rw [List.filterMap_append, List.filterMap_map]
  by_cases h : s = j
  · simp [h]
  · simp [h]

theorem Sys.run_ok {S : Sys} {s : ℕ} {i : Input} {e : Env} (hu : S.up s = true)
    (hv : (handle i e (S.srv s)).val = .ok ()) :
    S.run s i e = ⟨Function.update S.srv s (handle i e (S.srv s)).st, S.up,
      S.log ++ (handle i e (S.srv s)).out.map fun o => (s, o)⟩ := by
  unfold Sys.run
  simp only [hu, if_true, hv]

theorem Sys.run_error {S : Sys} {s : ℕ} {i : Input} {e : Env} {x : Fault} (hu : S.up s = true)
    (hv : (handle i e (S.srv s)).val = .error x) :
    S.run s i e = ⟨Function.update S.srv s (handle i e (S.srv s)).st, Function.update S.up s false,
      S.log ++ (handle i e (S.srv s)).out.map fun o => (s, o)⟩ := by
  unfold Sys.run
  simp only [hu, if_true, hv]

/-- Every replica of a cell lives a life, on the inputs of the run. -/
theorem Reachable.lives {cfg : Config} {ok : Sys → ℕ → Input → Env → Prop}
    {C : Paxos → Input → Env → Prop} {S : Sys} (h : Reachable cfg ok S)
    (hC : ∀ S s i e, ok S s i e → C (S.srv s) i e) {j : ℕ} (hj : j < cfg.core + cfg.extension) :
    Life C (cfg.server j) (S.outs j) (if S.up j then some (S.srv j) else none) := by
  induction h with
  | init => simpa [Config.init, Sys.outs, hj] using Life.start
  | @step S a s i e h ha hu hok ih =>
      cases hv : (handle i e (S.srv s)).val with
      | ok =>
          rw [Sys.run_ok hu hv, Sys.outs_append]
          by_cases hjs : s = j
          · subst hjs
            rw [if_pos hu] at ih
            simpa [hu] using ih.step (hC S s i e hok) hv
          · simpa [hjs, Ne.symm hjs] using ih
      | error x =>
          rw [Sys.run_error hu hv, Sys.outs_append]
          by_cases hjs : s = j
          · subst hjs
            rw [if_pos hu] at ih
            simpa using ih.stop (hC S s i e hok) hv
          · simpa [hjs, Ne.symm hjs] using ih

theorem Reachable.life {cfg : Config} {ok : Sys → ℕ → Input → Env → Prop} {S : Sys}
    (h : Reachable cfg ok S) {j : ℕ} (hj : j < cfg.core + cfg.extension) :
    Life (fun _ _ _ => True) (cfg.server j) (S.outs j)
      (if S.up j then some (S.srv j) else none) :=
  h.lives (fun _ _ _ _ _ => trivial) hj

end PaxosSolutions
