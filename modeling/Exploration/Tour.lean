import Exploration.Frontier
import Exploration.Guide
import Exploration.Visit

/-!
# Guided tours

An eager exploration of a system that asks a guide what to explore, and takes on no more states
than its budget allows. It ends when nothing is left or the guide stops it; on a system with
infinitely many states it may go on for ever, so a run is given a number of steps.
-/

namespace Exploration

structure Tour {σ ι τ : Type} (M : TransitionSystem σ ι τ) (A : List ι) (o : Order)
    (δ : Type) where
  frontier : Frontier (Visit σ ι τ δ) := .empty
  /-- How many more states may be taken on; `none` if there is no limit. -/
  budget : Option Nat := none
  /-- Whether every state the guide chose to explore was taken on. -/
  complete : Bool := true

namespace Tour

/-- How a tour ended. -/
structure Outcome (ν : Type) where
  complete : Bool
  memory : ν
  deriving DecidableEq

inductive Status {σ ι τ : Type} (M : TransitionSystem σ ι τ) (A : List ι) (o : Order)
    (δ ν : Type) where
  | going (tour : Tour M A o δ) (memory : ν)
  | done (outcome : Outcome ν)

variable {σ ι τ δ ν : Type} {M : TransitionSystem σ ι τ} {A : List ι} {o : Order}

/-- Takes on a state if the budget allows it, with its visit where `put` puts it. -/
def enroll (put : Visit σ ι τ δ → Frontier (Visit σ ι τ δ) → Frontier (Visit σ ι τ δ))
    (t : Tour M A o δ) (s : σ) (data : δ) : Tour M A o δ :=
  if t.budget = some 0 then ⟨t.frontier, t.budget, false⟩
  else ⟨put (.planned A data s) t.frontier, t.budget.map (· - 1), t.complete⟩

/-- Asks about the initial states. Those taken on are explored in their own order, whatever the
order of the tour. -/
def welcome (g : Guide σ ι τ δ ν) : List σ → Tour M A o δ → ν → Status M A o δ ν
  | [], t, m => .going t m
  | s :: rest, t, m =>
    match g.onInitial m s with
    | (.explore data, m) => welcome g rest (t.enroll Frontier.pushBack s data) m
    | (.stop, m) => .done ⟨t.complete, m⟩
    | (.ignore, m) => welcome g rest t m
    | (.skipLetter, m) => welcome g rest t m
    | (.skipState, m) => welcome g rest t m

def withFrontier (t : Tour M A o δ) (f : Frontier (Visit σ ι τ δ)) : Tour M A o δ :=
  ⟨f, t.budget, t.complete⟩

/-- Goes on after the guide was asked about a transition to `s` from the state of the visit
`v`, behind which the frontier holds `rest`. -/
def follow (t : Tour M A o δ) (v : Visit σ ι τ δ) (rest : Frontier (Visit σ ι τ δ)) (s : σ)
    (m : ν) : Decision δ → Status M A o δ ν
  | .explore data => .going ((t.withFrontier (rest.pushFront v)).enroll (Frontier.push o) s data) m
  | .ignore => .going (t.withFrontier (rest.pushFront v)) m
  | .skipLetter => .going (t.withFrontier (rest.pushFront v.skipLetter)) m
  | .skipState => .going (t.withFrontier rest) m
  | .stop => .done ⟨t.complete, m⟩

/-- One question about the head of the frontier, or the end of its transitions. -/
def step (g : Guide σ ι τ δ ν) (t : Tour M A o δ) (m : ν) : Status M A o δ ν :=
  match t.frontier.pop? with
  | none => .done ⟨t.complete, m⟩
  | some (v, rest) =>
    if v.started then
      match v.next M with
      | (none, _) => .going (t.withFrontier rest) m
      | (some (i, x), u) =>
        let (d, m) := g.onTransition m v.state v.label i x (M.successor x)
        t.follow u rest (M.successor x) m d
    else
      match g.onStart m v.state v.label with
      | (true, m) => .going (t.withFrontier (rest.pushFront v.start)) m
      | (false, m) => .going (t.withFrontier rest) m

/-- At most `n` steps; `none` if they do not suffice. -/
def run (g : Guide σ ι τ δ ν) : Nat → Status M A o δ ν → Option (Outcome ν)
  | _, .done r => some r
  | 0, .going _ _ => none
  | n + 1, .going t m => run g n (t.step g m)

/-- A tour of at most `n` steps through `M`, taking on at most `limit` states. -/
def explore (g : Guide σ ι τ δ ν) (M : TransitionSystem σ ι τ) (A : List ι) (o : Order)
    (limit : Option Nat) (m : ν) (n : Nat) : Option (Outcome ν) :=
  run g n (welcome g M.initial (⟨.empty, limit, true⟩ : Tour M A o δ) m)

/-- More steps do not change the outcome. -/
theorem run_add {g : Guide σ ι τ δ ν} {n : Nat} {st : Status M A o δ ν} {r : Outcome ν}
    (h : run g n st = some r) (k : Nat) : run g (n + k) st = some r := by
  induction n generalizing st with
  | zero =>
    cases st with
    | going t m => simp [run] at h
    | done r' => simpa [run] using h
  | succ n ih =>
    cases st with
    | going t m =>
      rw [Nat.succ_add]
      exact ih h
    | done r' => simpa [run] using h

end Tour

end Exploration
