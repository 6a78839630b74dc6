import Exploration.Proofs.Tour.Stage

/-!
# The progress of an exploration

An account of a guided exploration counts how many of the guide's choices were honoured. A tour
counts what is left of its budget instead. `Progress.tour` is the tour at a given progress, and
`invite` asks about the initial states as `welcome` does, but hands on the states to explore.
-/

namespace Exploration.Tour

variable {σ ι τ δ ν : Type} {M : TransitionSystem σ ι τ} {A : List ι} {o : Order}

structure Progress (ν : Type) where
  /-- How many choices to explore were honoured. -/
  honoured : Nat
  /-- Whether all of them were. -/
  complete : Bool
  memory : ν

namespace Progress

def start (memory : ν) : Progress ν := ⟨0, true, memory⟩

/-- Whether one more choice to explore is honoured. -/
def honours (limit : Option Nat) (p : Progress ν) : Bool := limit.all (p.honoured < ·)

def honour (p : Progress ν) : Progress ν := { p with honoured := p.honoured + 1 }

/-- A choice to explore is dropped. -/
def drop (p : Progress ν) : Progress ν := { p with complete := false }

def remember (p : Progress ν) (memory : ν) : Progress ν := { p with memory }

def outcome (p : Progress ν) : Outcome ν := ⟨p.complete, p.memory⟩

/-- The tour that has come as far and has the frontier `f`. -/
def tour (limit : Option Nat) (p : Progress ν) (f : Frontier (Visit σ ι τ δ)) : Tour M A o δ :=
  ⟨f, limit.map (· - p.honoured), p.complete⟩

/-- The status of that tour. -/
def going (limit : Option Nat) (p : Progress ν) (f : Frontier (Visit σ ι τ δ)) :
    Status M A o δ ν :=
  .going (p.tour limit f) p.memory

/-- A tour begins with nothing pending and all of its budget. -/
theorem tour_start (limit : Option Nat) (m : ν) :
    (start m).tour limit .empty = (⟨.empty, limit, true⟩ : Tour M A o δ) := by
  cases limit <;> rfl

theorem honours_iff {limit : Option Nat} {p : Progress ν} :
    p.honours limit = true ↔ limit.map (· - p.honoured) ≠ some 0 := by
  cases limit with
  | none => simp [honours]
  | some k =>
    simp only [honours, Option.all_some, decide_eq_true_eq, Option.map_some, ne_eq,
      Option.some.injEq]
    omega

theorem enroll_tour (limit : Option Nat) (p : Progress ν) (f : Frontier (Visit σ ι τ δ))
    (put : Visit σ ι τ δ → Frontier (Visit σ ι τ δ) → Frontier (Visit σ ι τ δ)) (s : σ)
    (data : δ) : (p.tour limit f : Tour M A o δ).enroll put s data =
      if p.honours limit then p.honour.tour limit (put (.planned A data s) f)
      else p.drop.tour limit f := by
  rw [enroll, tour]
  by_cases h : p.honours limit = true
  · rw [if_pos h, if_neg (honours_iff.1 h), tour, honour]
    cases limit with
    | none => rfl
    | some k =>
      simp only [Option.map_some, Nat.sub_sub]
  · rw [if_neg h, if_pos (Decidable.not_not.1 fun hb => h (honours_iff.2 hb))]
    rfl

section Steps

variable {g : Guide σ ι τ δ ν} {limit : Option Nat} {p : Progress ν}
  {f rest : Frontier (Visit σ ι τ δ)} {v u : Visit σ ι τ δ}

theorem step_of_none (h : f.pop? = none) :
    (p.tour limit f : Tour M A o δ).step g p.memory = .done p.outcome := by
  simp only [step, tour, h, outcome]

theorem step_of_planned (h : f.pop? = some (v, rest)) (fresh : v.started = false) :
    (p.tour limit f : Tour M A o δ).step g p.memory =
      match g.onStart p.memory v.state v.label with
      | (true, m) => (p.remember m).going limit (rest.pushFront v.start)
      | (false, m) => (p.remember m).going limit rest := by
  simp only [step, tour, h, fresh]
  rfl

theorem step_of_end (h : f.pop? = some (v, rest)) (begun : v.started = true)
    (next : v.next M = (none, u)) :
    (p.tour limit f : Tour M A o δ).step g p.memory = p.going limit rest := by
  simp only [step, tour, h, begun, next]
  rfl

theorem step_of_transition {i : ι} {x : τ} (h : f.pop? = some (v, rest))
    (begun : v.started = true) (next : v.next M = (some (i, x), u)) :
    (p.tour limit f : Tour M A o δ).step g p.memory =
      match g.onTransition p.memory v.state v.label i x (M.successor x) with
      | (.explore data, m) =>
        if p.honours limit then
          (p.remember m).honour.going limit
            ((rest.pushFront u).push o (.planned A data (M.successor x)))
        else (p.remember m).drop.going limit (rest.pushFront u)
      | (.ignore, m) => (p.remember m).going limit (rest.pushFront u)
      | (.skipLetter, m) => (p.remember m).going limit (rest.pushFront u.skipLetter)
      | (.skipState, m) => (p.remember m).going limit rest
      | (.stop, m) => .done (p.remember m).outcome := by
  cases answer : g.onTransition p.memory v.state v.label i x (M.successor x) with
  | mk d m =>
    have asked : (p.tour limit f : Tour M A o δ).step g p.memory =
        (p.tour limit f).follow u rest (M.successor x) m d := by
      rw [step, show (p.tour limit f : Tour M A o δ).frontier.pop? = some (v, rest) from h]
      simp only [begun, next, answer, if_true]
    rw [asked]
    cases d with
    | explore data =>
      have enrolled := (p.remember m).enroll_tour (M := M) (A := A) (o := o) limit
        (rest.pushFront u) (Frontier.push o) (M.successor x) data
      refine (congrArg (Status.going · m) enrolled).trans ?_
      by_cases h : p.honours limit = true
      · exact (congrArg (Status.going · m) (if_pos h)).trans (if_pos h).symm
      · exact (congrArg (Status.going · m) (if_neg h)).trans (if_neg h).symm
    | ignore => rfl
    | skipLetter => rfl
    | skipState => rfl
    | stop => rfl

end Steps

end Progress

/-- Asks about the initial states and keeps those to be explored with their data; nothing is kept
if the guide stops. -/
def invite (g : Guide σ ι τ δ ν) (limit : Option Nat) :
    List σ → Progress ν → Option (List (σ × δ)) × Progress ν
  | [], p => (some [], p)
  | s :: rest, p =>
    match g.onInitial p.memory s with
    | (.explore data, m) =>
      if p.honours limit then
        let (kept, q) := invite g limit rest (p.remember m).honour
        (kept.map ((s, data) :: ·), q)
      else invite g limit rest (p.remember m).drop
    | (.stop, m) => (none, p.remember m)
    | (.ignore, m) => invite g limit rest (p.remember m)
    | (.skipLetter, m) => invite g limit rest (p.remember m)
    | (.skipState, m) => invite g limit rest (p.remember m)

/-- The visits planned for the states kept, behind those there are. -/
def enqueue (A : List ι) (kept : List (σ × δ)) (f : Frontier (Visit σ ι τ δ)) :
    Frontier (Visit σ ι τ δ) :=
  ⟨f.ready, (kept.map fun k => .planned A k.2 k.1).reverse ++ f.waiting⟩

theorem toList_enqueue_empty (kept : List (σ × δ)) :
    (enqueue A kept .empty : Frontier (Visit σ ι τ δ)).toList =
      kept.map fun k => .planned A k.2 k.1 := by
  simp [enqueue, Frontier.empty, Frontier.toList]

theorem pop?_enqueue_empty (kept : List (σ × δ)) :
    (enqueue A kept .empty : Frontier (Visit σ ι τ δ)).pop? =
      (⟨kept.map fun k => .planned A k.2 k.1, []⟩ : Frontier (Visit σ ι τ δ)).pop? := by
  cases kept <;> simp [enqueue, Frontier.empty, Frontier.pop?]

theorem enqueue_pushBack (s : σ) (data : δ) (kept : List (σ × δ))
    (f : Frontier (Visit σ ι τ δ)) :
    enqueue A kept (f.pushBack (.planned A data s)) = enqueue A ((s, data) :: kept) f := by
  simp [enqueue, Frontier.pushBack]

/-- A tour plans visits of the initial states that `invite` keeps. -/
theorem welcome_eq (g : Guide σ ι τ δ ν) (limit : Option Nat) (states : List σ) (p : Progress ν)
    (f : Frontier (Visit σ ι τ δ)) :
    welcome g states (p.tour limit f : Tour M A o δ) p.memory =
      match invite g limit states p with
      | (some kept, q) => q.going limit (enqueue A kept f)
      | (none, q) => .done q.outcome := by
  induction states generalizing p f with
  | nil => rfl
  | cons s rest ih =>
    rw [welcome, invite]
    rcases g.onInitial p.memory s with ⟨d, m⟩
    cases d with
    | explore data =>
      have same : (p.tour limit f : Tour M A o δ) = (p.remember m).tour limit f := rfl
      dsimp only
      rw [same, Progress.enroll_tour]
      by_cases h : p.honours limit = true
      · have h' : (p.remember m).honours limit = true := h
        rw [if_pos h, if_pos h']
        refine (ih (p.remember m).honour (f.pushBack (.planned A data s))).trans ?_
        rcases invite g limit rest (p.remember m).honour with ⟨_ | kept, q⟩
        · rfl
        · exact congrArg (q.going limit) (enqueue_pushBack s data kept f)
      · have h' : ¬ (p.remember m).honours limit = true := h
        rw [if_neg h, if_neg h']
        exact ih (p.remember m).drop f
    | ignore => exact ih (p.remember m) f
    | skipLetter => exact ih (p.remember m) f
    | skipState => exact ih (p.remember m) f
    | stop => rfl

/-- Where a tour of `M` stands when it has asked about the initial states. -/
theorem welcome_start (g : Guide σ ι τ δ ν) (limit : Option Nat) (m : ν) :
    welcome g M.initial (⟨.empty, limit, true⟩ : Tour M A o δ) m =
      match invite g limit M.initial (.start m) with
      | (some kept, q) => q.going limit (enqueue A kept .empty)
      | (none, q) => .done q.outcome := by
  rw [← Progress.tour_start limit m]
  exact welcome_eq g limit M.initial (.start m) .empty

end Exploration.Tour
