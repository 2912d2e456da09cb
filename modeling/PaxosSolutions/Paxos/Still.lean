import PaxosSolutions.Paxos.Move

/-!
# Handlers that stand still

The election, the connection tables and the requests of a catch-up do not
touch the protocol part of the state and put out nothing of it.
-/
namespace PaxosSolutions
open NWGadget Lib Lib.Handler

/-- No change of the protocol part, nor of what holds back acceptance. -/
def Still (s : Paxos) (o : List Out) (t : Paxos) : Prop :=
  t.toReplica = s.toReplica ∧ (t.AcceptsOwn ↔ s.AcceptsOwn) ∧ ∀ x ∈ o, x.Quiet

theorem still_compositional : Compositional Still where
  refl _ := ⟨rfl, Iff.rfl, by simp⟩
  trans := by
    rintro s o t o' u ⟨h₁, h₂, h₃⟩ ⟨h₄, h₅, h₆⟩
    refine ⟨h₄.trans h₁, h₅.trans h₂, fun x hx => ?_⟩
    rcases List.mem_append.mp hx with hx | hx
    · exact h₃ x hx
    · exact h₆ x hx

abbrev Stills {α : Type} (x : PaxosM α) : Prop :=
  Does Still (fun _ => True) x fun _ _ => True

namespace Stills
variable {α β : Type}

theorem pure (a : α) : Stills (pure a : PaxosM α) :=
  Does.pure still_compositional fun _ _ => trivial

theorem bind {x : PaxosM α} {f : α → PaxosM β} (hx : Stills x) (hf : ∀ a, Stills (f a)) :
    Stills (x >>= f) :=
  Does.bind still_compositional hx hf

theorem read {f : Paxos → PaxosM β} (h : ∀ s, Stills (f s)) : Stills (Handler.read >>= f) :=
  Does.read fun s _ => (h s).weaken fun _ _ => trivial

theorem modify {g : Paxos → Paxos}
    (h : ∀ s, (g s).toReplica = s.toReplica ∧ ((g s).AcceptsOwn ↔ s.AcceptsOwn)) :
    Stills (Handler.modify g) :=
  Does.modify fun s _ => ⟨⟨(h s).1, (h s).2, by simp⟩, trivial⟩

theorem emit {o : Out} (h : o.Quiet) : Stills (Handler.emit o) :=
  Does.emit fun s _ => ⟨⟨rfl, Iff.rfl, by simpa using h⟩, trivial⟩

theorem fail {e : Fault} : Stills (Handler.fail e : PaxosM α) := Does.fail still_compositional

theorem ite {c : Prop} [Decidable c] {x y : PaxosM α} (hx : Stills x) (hy : Stills y) :
    Stills (if c then x else y) :=
  Does.ite (fun _ => hx) fun _ => hy

theorem when {c : Prop} [Decidable c] {x : PaxosM Unit} (hx : Stills x) :
    Stills (Handler.when c x) :=
  Does.when still_compositional (fun _ => hx) fun _ _ _ => trivial

theorem each {ι : Type} {f : ι → PaxosM Unit} {is : List ι} (h : ∀ i, Stills (f i)) :
    Stills (Handler.each f is) :=
  Does.each still_compositional fun i _ => h i

end Stills

theorem paxosSend_still {j : ℕ} {m : Msg} (h : m.Quiet) : Stills (paxosSend j m) :=
  Stills.read fun _ => Stills.when (Stills.emit h)

theorem paxosValidate_still {mode : NotifyMode} {seq : UInt32} {v : Value} {c : MetaCmd}
    {e : Env} : Stills (paxosValidate mode seq v c e) :=
  Stills.read fun _ => Stills.ite (Stills.pure _) (Stills.ite (Stills.pure _)
    (Stills.bind (Stills.emit (by simp [Out.Quiet])) fun _ => Stills.pure _))

theorem catchupFire_still {e : Env} : Stills (catchupFire e) :=
  Stills.read fun _ => Stills.ite (Stills.modify fun _ => ⟨rfl, Iff.rfl⟩)
    (Stills.bind (Stills.modify fun _ => ⟨rfl, Iff.rfl⟩) fun _ => paxosSend_still trivial)

theorem catchupRequest_still {j : ℕ} {nd : UInt32} {e : Env} : Stills (catchupRequest j nd e) := by
  refine Stills.read fun p => ?_
  refine Stills.ite (Stills.pure _) (Stills.ite (Stills.pure _) (Stills.ite ?_ ?_))
  · refine Stills.ite ?_ (Stills.ite ?_ (Stills.pure _))
    · exact Stills.bind (Stills.modify fun _ => ⟨rfl, Iff.rfl⟩) fun _ => catchupFire_still
    · exact Stills.bind (Stills.modify fun _ => ⟨rfl, Iff.rfl⟩) fun _ =>
        Stills.when catchupFire_still
  · exact Stills.bind (Stills.modify fun _ => ⟨rfl, Iff.rfl⟩) fun _ => catchupFire_still

theorem catchupFinish_still : Stills catchupFinish :=
  Stills.bind (Stills.modify fun _ => ⟨rfl, Iff.rfl⟩) fun _ => Stills.read fun _ =>
    Stills.each fun _ => Stills.read fun _ => Stills.ite (Stills.pure _)
      (Stills.bind (Stills.modify fun _ => ⟨rfl, Iff.rfl⟩) fun _ => paxosSend_still trivial)

theorem checkConnection_still {j : ℕ} {e : Env} : Stills (checkConnection j e) := by
  refine Stills.read fun p => ?_
  refine Stills.ite (Stills.ite ?_ (Stills.pure _)) (Stills.ite ?_ (Stills.pure _))
  all_goals exact Stills.bind (Stills.modify fun _ => ⟨rfl, Iff.rfl⟩) fun _ => Stills.pure _

theorem modElection_still {f : Election → Election} : Stills (modElection f) :=
  Stills.modify fun _ => ⟨rfl, Iff.rfl⟩

theorem electLeader_still {j : ℕ} {e : Env} : Stills (electLeader j e) := by
  refine Stills.read fun p => ?_
  split
  · refine Stills.bind modElection_still fun _ => ?_
    refine Stills.bind (Stills.when (Stills.bind modElection_still fun _ => ?_)) fun _ => ?_
    · exact Stills.emit trivial
    refine Stills.bind (Stills.when (Stills.bind modElection_still fun _ => ?_)) fun _ => ?_
    · exact Stills.emit trivial
    exact Stills.read fun _ => Stills.emit trivial
  · refine Stills.bind (Stills.when (Stills.emit trivial)) fun _ => ?_
    refine Stills.bind modElection_still fun _ => ?_
    exact Stills.when (Stills.bind modElection_still fun _ => Stills.emit trivial)

theorem myVote_still : Stills myVote :=
  Stills.read fun _ => Stills.bind (Stills.modify fun _ => ⟨rfl, Iff.rfl⟩) fun _ => Stills.pure _

theorem sendAlive_still {j : ℕ} {e : Env} : Stills (sendAlive j e) :=
  Stills.read fun _ => paxosSend_still trivial

theorem setLeader_still {j : ℕ} {e : Env} : Stills (setLeader j e) :=
  Stills.read fun _ => Stills.ite (Stills.pure _) (Stills.bind myVote_still fun _ =>
    Stills.bind (Stills.when (Stills.each fun _ => sendAlive_still)) fun _ => electLeader_still)

theorem findCatchup_still {e : Env} (js : List ℕ) : Stills (findCatchup e js) := by
  induction js with
  | nil => exact Stills.pure _
  | cons j js ih =>
      exact Stills.bind checkConnection_still fun _ => Stills.read fun _ =>
        Stills.ite (Stills.pure _) ih

theorem aliveCatchup_still {j : ℕ} {m : MsgAlive} {e : Env} : Stills (aliveCatchup j m e) := by
  refine Stills.read fun p => Stills.when (Stills.ite catchupRequest_still ?_)
  refine Stills.bind (findCatchup_still _) fun _ => Stills.ite (Stills.pure _) ?_
  exact Stills.bind (Stills.emit (by simp [Out.Quiet])) fun _ => Stills.fail

theorem heartbeat_still {e : Env} : Stills (heartbeat e) := by
  refine Stills.read fun p => ?_
  refine Stills.bind (Stills.each fun j => ?_) fun _ =>
    Stills.bind (Stills.each fun _ => sendAlive_still) fun _ => Stills.when modElection_still
  refine Stills.bind checkConnection_still fun con => ?_
  split
  · exact setLeader_still
  · exact Stills.bind setLeader_still fun _ => Stills.read fun _ =>
      Stills.when (Stills.modify fun _ => ⟨rfl, Iff.rfl⟩)
  all_goals exact Stills.pure _

end PaxosSolutions
