import PaxosSolutions.Paxos.Still

/-!
# The moves of an execution

`Exec` of a decided slot reports a lost request, executes or keeps the
decision, executes the gaps that follow and may turn the page.
-/
namespace PaxosSolutions
open NWGadget Lib Lib.Handler

/-- The moves of `Exec` for the decided slot `k`. -/
inductive ExecMove (k : K) : Replica → List Out → Replica → Prop
  | quiet {p : Replica} {o : Out} (h : o.Quiet) : ExecMove k p [o] p
  | nextK {p : Replica} {n : ℕ} : ExecMove k p [] (p.setMulti fun m => { m with pNextK := n })
  | reject {p : Replica} {mode : NotifyMode} (hm : (p.slot k).pMode = .decided)
      (hi : (p.slot k).pInitValue.IsDefined)
      (hne : (p.slot k).pInitValue.vServer ≠ (p.slot k).pRndValue.vServer) :
      ExecMove k p [.notify mode .rejected (p.seq k) (p.slot k).pInitValue.vServer
        (p.slot k).pInitValue.vEpoch (p.slot k).cMetaCmdInit p.pMyId] p
  | execSlot {p : Replica} (hm : (p.slot k).pMode = .decided) :
      ExecMove k p [.execute (p.seq k) (p.slot k).pRndValue (p.slot k).cMetaCmdRnd] p
  | execGap {p : Replica} {x : UInt32} {g : Gap} (h : p.pGaps.getItem p.pNextDecide = some (x, g)) :
      ExecMove k p [.execute p.pNextDecide g.gDecision g.gMetaCmd] p
  | advance {p : Replica} :
      ExecMove k p [] { p with pNextDecide := p.pNextDecide + 1, pbSuppressAccept := false }
  | drop {p : Replica} :
      ExecMove k p []
        { p with
          pNextDecide := p.pNextDecide + 1
          pGaps := p.pGaps.removeItem p.pNextDecide }
  | park {p : Replica} (hm : (p.slot k).pMode = .decided) :
      ExecMove k p []
        { p with
          pGaps := p.pGaps.put (p.seq k) ⟨p.seq k, (p.slot k).pRndValue, (p.slot k).cMetaCmdRnd⟩ }
  | count {p : Replica} :
      ExecMove k p [] (p.setMulti fun m => { m with pSuccessCount := m.pSuccessCount + 1 })
  | turn {p : Replica} {lnk : List Multi} (h : lnk <+: p.pMulti :: p.pMultiLnk) :
      ExecMove k p []
        { p with
          pMultiLnk := lnk
          pMulti :=
            { p.pMulti with
              slots := fun _ => { pRndAccQuo := quorumInit p.pMax }
              pPage := p.pMulti.pPage + 1
              pNextK := 0
              pSuccessCount := 0 } }

/-- Nothing else of the leader's state and the setup changes. -/
theorem ExecMove.frame {k : K} {p p' : Replica} {o : List Out} (h : ExecMove k p o p') :
    p'.pMyId = p.pMyId ∧ p'.pMax = p.pMax ∧ p'.curRnd = p.curRnd ∧ p'.aMode = p.aMode ∧
      p'.infQuo = p.infQuo := by
  cases h <;> exact ⟨rfl, rfl, rfl, rfl, rfl⟩

abbrev ExecGoes (k : K) (s : Paxos) (o : List Out) (t : Paxos) : Prop :=
  Runs (ExecMove k) s.toReplica o t.toReplica

theorem execGoes_compositional (k : K) : Compositional (ExecGoes k) :=
  ⟨fun _ => .refl _, Runs.trans⟩

abbrev DecidedAt (k : K) (p : Replica) : Prop := (p.slot k).pMode = .decided

/-- The protocol part is `r`. -/
abbrev At (r : Replica) (s : Paxos) : Prop := s.toReplica = r

section
variable {k : K}

theorem execute_goes {seq : UInt32} {d : Value} {c : MetaCmd} {r : Replica}
    (h : ExecMove k r [.execute seq d c] r) :
    Does (ExecGoes k) (At r) (execute seq d c) fun _ => At r := by
  refine Does.read fun s hs => ?_
  subst hs
  refine Does.bind (execGoes_compositional k) (Q := fun _ => At s.toReplica) ?_ fun _ => ?_
  · refine Does.emit ?_
    rintro t rfl
    exact ⟨.single h, rfl⟩
  · refine Does.ite (fun _ => Does.emit fun t ht => ?_) fun _ => Does.emit fun t ht => ?_
    · exact ⟨.single (.quiet (by simp [Out.Quiet])), ht⟩
    · exact ⟨.single (.quiet trivial), ht⟩

theorem execGaps_goes (n : ℕ) :
    Does (ExecGoes k) (fun s => DecidedAt k s.toReplica) (execGaps n)
      fun _ s => DecidedAt k s.toReplica := by
  induction n with
  | zero => exact Does.pure (execGoes_compositional k) fun _ h => h
  | succ n ih =>
      refine Does.read fun s hs => ?_
      cases hg : s.pGaps.getItem s.pNextDecide with
      | none => exact Does.pure (execGoes_compositional k) fun t ht => ht ▸ hs
      | some xg =>
          obtain ⟨x, g⟩ := xg
          refine Does.bind (execGoes_compositional k)
            (Does.weaken (execute_goes (r := s.toReplica) (.execGap hg)) fun t ht => ht ▸ rfl)
            fun _ => ?_
          refine Does.bind (execGoes_compositional k) (Does.modify fun t ht => ?_) fun _ => ih
          refine ⟨.single .drop, ?_⟩
          change DecidedAt k t.toReplica
          rwa [ht]

theorem execNext_goes :
    Does (ExecGoes k) (fun s => DecidedAt k s.toReplica) (execNext k)
      fun _ s => DecidedAt k s.toReplica := by
  refine Does.read fun s hs => ?_
  refine Does.bind (execGoes_compositional k)
    (Q := fun _ => At { s.toReplica with
      pNextDecide := s.pNextDecide + 1, pbSuppressAccept := false }) (Does.modify ?_) fun _ => ?_
  · rintro t rfl
    exact ⟨.single .advance, rfl⟩
  refine Does.bind (execGoes_compositional k) (execute_goes (.execSlot hs)) fun _ => ?_
  exact (execGaps_goes _).weaken fun t ht => by rw [ht]; exact hs

theorem execLater_goes :
    Does (ExecGoes k) (fun s => DecidedAt k s.toReplica) (execLater k)
      fun _ s => DecidedAt k s.toReplica :=
  Does.modify fun _ hs => ⟨.single (.park hs), hs⟩

theorem execUp_goes :
    Does (ExecGoes k) (fun s => DecidedAt k s.toReplica) (execUp k) fun _ _ => True := by
  have hR := execGoes_compositional k
  refine Does.bind hR (Q := fun _ s => DecidedAt k s.toReplica)
    (Does.modify fun s hs => ⟨.single .nextK, hs⟩) fun _ => Does.read fun s hs => ?_
  refine Does.ite (fun _ => Does.pure hR fun _ _ => trivial) fun _ => ?_
  refine Does.bind hR (Q := fun _ s => DecidedAt k s.toReplica) (Does.when hR (fun hc => ?_) ?_)
    fun _ => ?_
  · refine Does.emit ?_
    rintro t rfl
    exact ⟨.single (.reject hs hc.1 hc.2), hs⟩
  · rintro - t rfl
    exact hs
  refine Does.bind hR (Does.ite (fun _ => execNext_goes) fun _ => execLater_goes) fun _ => ?_
  refine Does.bind hR (Q := fun _ _ => True) (Does.modify fun s _ => ?_) fun _ =>
    Does.pure hR fun _ _ => trivial
  exact ⟨.single .count, trivial⟩

/-- `PutPage` keeps a first part of the list with the page. -/
theorem putPage_lnk (e : Env) (p : Paxos) :
    ∃ lnk, lnk <+: p.pMulti :: p.pMultiLnk ∧
      (putPage e p).toReplica =
        { p.toReplica with pMultiLnk := lnk, pMulti := { p.pMulti with slots := fun _ => {} } } := by
  unfold putPage
  simp only []
  split
  · exact ⟨_, List.rdropWhile_prefix _ _, rfl⟩
  · exact ⟨_, List.prefix_rfl, rfl⟩

theorem updatePage_run {e : Env} {s : Paxos} (h : ¬ s.pMulti.pSuccessCount < paxosMax) :
    updatePage e s =
      ⟨.ok (), (putPage e s).onReplica (Replica.setMulti (Multi.next s.pMax)), []⟩ := by
  unfold updatePage
  rw [read_bind, if_neg h]
  rfl

theorem updatePage_goes {e : Env} :
    Does (ExecGoes k) (fun _ => True) (updatePage e) fun _ _ => True := by
  refine Does.of_run fun s _ => ?_
  by_cases h : s.pMulti.pSuccessCount < paxosMax
  · exact ⟨(), [], s, by unfold updatePage; rw [read_bind, if_pos h]; rfl, .refl _, trivial⟩
  · refine ⟨(), _, _, updatePage_run h, ?_, trivial⟩
    obtain ⟨lnk, hl, hp⟩ := putPage_lnk e s
    unfold ExecGoes
    rw [Paxos.onReplica_toReplica, hp]
    exact .single (.turn hl)

theorem exec_goes {e : Env} :
    Does (ExecGoes k) (fun s => DecidedAt k s.toReplica) (exec k e) fun _ _ => True := by
  have hR := execGoes_compositional k
  refine Does.read fun s hs => ?_
  refine Does.bind hR (Q := fun _ s => DecidedAt k s.toReplica)
    (Does.require hR fun t ht _ => ht ▸ hs) fun _ => ?_
  refine Does.bind hR (Q := fun _ s => DecidedAt k s.toReplica)
    (Does.when hR (fun _ => Does.modify fun t ht => ⟨.refl _, ht⟩) fun _ _ h => h) fun _ => ?_
  exact Does.bind hR execUp_goes fun _ =>
    Does.when hR (fun _ => updatePage_goes) fun _ _ _ => trivial

theorem Execs.goes {p p' : Replica} {o : List Out} (h : Execs k p o p')
    (hm : (p.slot k).pMode = .decided) : Runs (ExecMove k) p o p' := by
  obtain ⟨s, e, rfl, hv, rfl, rfl⟩ := h
  exact ((exec_goes s hm).1 () hv).1

theorem Execs.frame {p p' : Replica} {o : List Out} (h : Execs k p o p')
    (hm : (p.slot k).pMode = .decided) :
    p'.pMyId = p.pMyId ∧ p'.pMax = p.pMax ∧ p'.curRnd = p.curRnd ∧ p'.aMode = p.aMode ∧
      p'.infQuo = p.infQuo := by
  refine (h.goes hm).invariant (I := fun _ q => q.pMyId = p.pMyId ∧ q.pMax = p.pMax ∧
    q.curRnd = p.curRnd ∧ q.aMode = p.aMode ∧ q.infQuo = p.infQuo) ⟨rfl, rfl, rfl, rfl, rfl⟩ ?_
  intro o t o' u ht hu
  obtain ⟨h₁, h₂, h₃, h₄, h₅⟩ := hu.frame
  rw [h₁, h₂, h₃, h₄, h₅]
  exact ht

end

end PaxosSolutions
