import PaxosSolutions.Paxos.Run

/-!
# The cell

Replicas and what was sent. A packet that was sent stays available, so it may
be delivered late, in any order, several times or never. A replica that stops
on an error takes no more steps.
-/
namespace PaxosSolutions

/-- How a cell is set up: every replica is started once. -/
structure Config where
  core : ℕ
  extension : ℕ := 0
  unitUsec : ℤ := 20000
  birth : ℕ → ℤ := fun _ => 0
  mode : ℕ → StartMode := fun _ => .noSeq
  nextDecide : ℕ → UInt32 := fun _ => 0
  core_pos : 0 < core := by decide

structure Packet where
  fr : ℕ
  dst : ℕ
  msg : Msg

structure Sys where
  srv : ℕ → Paxos
  up : ℕ → Bool
  log : List (ℕ × Out)

namespace Sys

/-- The packets sent so far, in order. -/
def sent (S : Sys) : List Packet :=
  S.log.filterMap fun x =>
    match x.2 with
    | .send dst m => some ⟨x.1, dst, m⟩
    | _ => none

theorem mem_sent {S : Sys} {x : Packet} : x ∈ S.sent ↔ (x.fr, .send x.dst x.msg) ∈ S.log := by
  unfold sent
  rw [List.mem_filterMap]
  constructor
  · rintro ⟨⟨fr, o⟩, hm, h⟩
    cases o <;> simp at h
    subst h
    exact hm
  · exact fun h => ⟨_, h, rfl⟩

end Sys

/-- The replica as `PaxosInitUsec` and `PaxosStart` leave it. -/
def Config.server (cfg : Config) (s : ℕ) : Paxos :=
  paxosStart (cfg.mode s) (cfg.nextDecide s)
    (paxosInit s cfg.core cfg.extension (fun j => decide (j < cfg.core + cfg.extension))
      cfg.unitUsec { now := cfg.birth s })

def Config.init (cfg : Config) : Sys where
  srv := cfg.server
  up s := decide (s < cfg.core + cfg.extension)
  log := []

/-- One step of replica `s`. -/
def Sys.run (S : Sys) (s : ℕ) (i : Input) (e : Env) : Sys :=
  if S.up s then
    let r := handle i e (S.srv s)
    { srv := Function.update S.srv s r.st
      up := match r.val with
        | .ok _ => S.up
        | .error _ => Function.update S.up s false
      log := S.log ++ r.out.map fun o => (s, o) }
  else S

/-- What happens in the cell: the delivery of the `n`-th packet, or a client,
a thread or the administration acts on a replica. -/
inductive Act where
  | deliver (n : ℕ) (e : Env)
  | request (s : ℕ) (cmd : List UInt8) (validate : Bool) (e : Env)
  | detector (s : ℕ) (e : Env)
  | heartbeat (s : ℕ) (e : Env)
  | newRound (s : ℕ) (e : Env)

/-- The replica that takes the step, with its input. -/
def Sys.input (S : Sys) : Act → Option (ℕ × Input × Env)
  | .deliver n e => S.sent[n]?.map fun x => (x.dst, .recv x.fr x.msg, e)
  | .request s cmd validate e => some (s, .request cmd validate, e)
  | .detector s e => some (s, .detector, e)
  | .heartbeat s e => some (s, .heartbeat, e)
  | .newRound s e => some (s, .recv s .testNewRound, e)

def Sys.step (S : Sys) (a : Act) : Sys :=
  match S.input a with
  | some (s, i, e) => S.run s i e
  | none => S

/-- The states of the runs in which every step meets `ok`. -/
inductive Reachable (cfg : Config) (ok : Sys → ℕ → Input → Env → Prop) : Sys → Prop
  | init : Reachable cfg ok cfg.init
  | step {S : Sys} {a : Act} {s : ℕ} {i : Input} {e : Env} (h : Reachable cfg ok S)
      (ha : S.input a = some (s, i, e)) (hu : S.up s = true) (hok : ok S s i e) :
      Reachable cfg ok (S.run s i e)

end PaxosSolutions
