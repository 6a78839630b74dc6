import Exploration.Event
import Exploration.Frontier
import Exploration.Visit

/-!
# Lazy traversals

A traversal of a system over an alphabet, in a given order, explores only what its consumer
schedules. It reports initial states, the start and finish of scheduled states, and the
transitions between them; it decides nothing and remembers no state it was not told to explore.

Breadth-first, all initial states are reported before anything is started, and a state is walked
to its end before the next one starts. Depth-first, an initial state is reported only when
nothing is left to explore, and a state scheduled while another is walked comes first.
-/

namespace Exploration

/-- What is kept of a scheduled state. -/
structure Record (σ δ : Type) where
  state : σ
  data : δ
  deriving DecidableEq

structure Traversal {σ ι τ : Type} (M : TransitionSystem σ ι τ) (A : List ι) (o : Order)
    (δ : Type) where
  /-- The initial states not yet reported. -/
  unread : List σ
  records : Array (Record σ δ)
  /-- The visits planned or under way, labelled by their records. -/
  frontier : Frontier (Visit σ ι τ RecordIndex)

namespace Traversal

variable {σ ι τ δ : Type} {M : TransitionSystem σ ι τ} {A : List ι} {o : Order}

def begin (M : TransitionSystem σ ι τ) (A : List ι) (o : Order) (δ : Type) :
    Traversal M A o δ :=
  ⟨M.initial, #[], .empty⟩

def record? (t : Traversal M A o δ) (r : RecordIndex) : Option (Record σ δ) := t.records[r]?

def recordCount (t : Traversal M A o δ) : Nat := t.records.size

/-- The traversal with one more record, at the index `t.recordCount`, and its visit in the
frontier. Nothing is compared: a state scheduled twice is explored twice. -/
def schedule (t : Traversal M A o δ) (s : σ) (d : δ) : Traversal M A o δ :=
  let r := t.recordCount
  ⟨t.unread, t.records.push ⟨s, d⟩, t.frontier.push o (.planned A r s)⟩

/-- The transition at which the new head of a depth-first frontier was left. -/
def backtrack (o : Order) (rest : Frontier (Visit σ ι τ RecordIndex)) :
    Option (Backtrack ι τ) :=
  match o with
  | .breadthFirst => none
  | .depthFirst =>
    rest.head?.bind fun below => below.last.map fun p => ⟨below.label, p.1, p.2⟩

/-- One step with the head of the frontier. -/
def resume (t : Traversal M A o δ) : Option (Event σ ι τ) × Traversal M A o δ :=
  match t.frontier.pop? with
  | none => (none, t)
  | some (v, rest) =>
    if v.started then
      match v.next M with
      | (some p, u) =>
        (some (.edge v.label p.1 p.2 (M.successor p.2)),
          ⟨t.unread, t.records, rest.pushFront u⟩)
      | (none, _) =>
        (some (.finish v.label v.state (backtrack o rest)), ⟨t.unread, t.records, rest⟩)
    else
      (some (.start v.label v.state), ⟨t.unread, t.records, rest.pushFront v.start⟩)

/-- The next event; `none` when every initial state was reported and nothing is scheduled. -/
def next (t : Traversal M A o δ) : Option (Event σ ι τ) × Traversal M A o δ :=
  if o = .breadthFirst ∨ t.frontier.isEmpty then
    match t.unread with
    | s :: rest => (some (.initial s), ⟨rest, t.records, t.frontier⟩)
    | [] => t.resume
  else t.resume

/-- Drops the remaining transitions of the letter at which the head of the frontier stands. -/
def skipLetter (t : Traversal M A o δ) : Except Error Unit × Traversal M A o δ :=
  match t.frontier.pop? with
  | none => (.error .idle, t)
  | some (v, rest) => (.ok (), ⟨t.unread, t.records, rest.pushFront v.skipLetter⟩)

/-- Gives up the state at the head of the frontier. Breadth-first it keeps its start and finish
and loses its transitions; depth-first nothing more is reported of it. -/
def skipState (t : Traversal M A o δ) : Except Error Unit × Traversal M A o δ :=
  match t.frontier.pop? with
  | none => (.error .idle, t)
  | some (v, rest) =>
    match o with
    | .breadthFirst => (.ok (), ⟨t.unread, t.records, rest.pushFront v.skipAll⟩)
    | .depthFirst => (.ok (), ⟨t.unread, t.records, rest⟩)

/-- Changes the data of a record, if there is one. -/
def modifyData (t : Traversal M A o δ) (r : RecordIndex) (change : δ → δ) :
    Traversal M A o δ :=
  ⟨t.unread, t.records.modify r fun rec => ⟨rec.state, change rec.data⟩, t.frontier⟩

@[simp] theorem unread_schedule (t : Traversal M A o δ) (s : σ) (d : δ) :
    (t.schedule s d).unread = t.unread := rfl

@[simp] theorem records_schedule (t : Traversal M A o δ) (s : σ) (d : δ) :
    (t.schedule s d).records = t.records.push ⟨s, d⟩ := rfl

@[simp] theorem recordCount_schedule (t : Traversal M A o δ) (s : σ) (d : δ) :
    (t.schedule s d).recordCount = t.recordCount + 1 :=
  Array.size_push ..

@[simp] theorem frontier_schedule (t : Traversal M A o δ) (s : σ) (d : δ) :
    (t.schedule s d).frontier = t.frontier.push o (.planned A t.recordCount s) := rfl

theorem records_resume (t : Traversal M A o δ) : t.resume.2.records = t.records := by
  rw [resume]
  split
  · rfl
  · split
    · split <;> rfl
    · rfl

/-- Only scheduling makes records. -/
theorem records_next (t : Traversal M A o δ) : t.next.2.records = t.records := by
  rw [next]
  split
  · split
    · rfl
    · exact t.records_resume
  · exact t.records_resume

theorem resume_eq_none_iff {t : Traversal M A o δ} :
    t.resume.1 = none ↔ t.frontier.toList = [] := by
  rw [resume, ← Frontier.pop?_eq_none_iff]
  split
  · next h => simp [h]
  · next v rest h =>
    rw [h]
    split
    · split <;> simp
    · simp

/-- A traversal reports nothing exactly when nothing is left to report. -/
theorem next_eq_none_iff {t : Traversal M A o δ} :
    t.next.1 = none ↔ t.unread = [] ∧ t.frontier.toList = [] := by
  rw [next]
  split
  · split
    · next h => simp [h]
    · next h => simp [h, resume_eq_none_iff]
  · next h =>
    rw [resume_eq_none_iff]
    have hne : t.frontier.toList ≠ [] := fun he => h (.inr (Frontier.isEmpty_iff.2 he))
    simp [hne]

theorem resume_of_none {t u : Traversal M A o δ} (h : t.resume = (none, u)) : u = t := by
  have hn : t.frontier.pop? = none :=
    Frontier.pop?_eq_none_iff.2 (resume_eq_none_iff.1 (congrArg Prod.fst h))
  rw [resume, hn] at h
  exact (Prod.mk.inj h).2.symm

/-- A traversal that reports nothing is left as it was. -/
theorem next_of_none {t u : Traversal M A o δ} (h : t.next = (none, u)) : u = t := by
  have hu : t.unread = [] := (next_eq_none_iff.1 (congrArg Prod.fst h)).1
  rw [next, hu] at h
  split at h
  · exact resume_of_none h
  · exact resume_of_none h

end Traversal

end Exploration
