import Std.Data.HashMap
import Exploration.Color
import Exploration.Search.Event
import Exploration.Traversal

/-!
# Searches

A search is a traversal that schedules every state it meets for the first time. Each state has
one record, which carries its color, and the kind of an edge is given by the color of its target
at the time the edge is seen:

* a target without a record is discovered by the edge, which is a tree edge;
* a gray target makes a back edge;
* breadth-first, a white target makes a cross edge and turns gray, a black one a back edge;
* depth-first, any other target makes a cross edge if it was discovered before the source, and a
  forward edge otherwise.
-/

namespace Exploration

/-- What a search keeps of a state. -/
structure Search.Record (σ δ : Type) where
  state : σ
  data : δ
  color : Color
  /-- The place in the order of discovery; only depth-first searches number their records. -/
  discovery : Option Nat

structure Search {σ ι τ : Type} [DecidableEq σ] [Hashable σ] (M : TransitionSystem σ ι τ)
    (A : List ι) (o : Order) (δ : Type) where
  /-- The traversal underneath; the data of its records are indices of `records`. -/
  traversal : Traversal M A o RecordIndex
  records : Array (Search.Record σ δ)
  index : Std.HashMap σ RecordIndex
  /-- The number for the next record that is numbered. -/
  nextDiscovery : Nat

namespace Search

variable {σ ι τ δ : Type} [DecidableEq σ] [Hashable σ] {M : TransitionSystem σ ι τ}
  {A : List ι} {o : Order}

def begin (M : TransitionSystem σ ι τ) (A : List ι) (o : Order) (δ : Type) : Search M A o δ :=
  ⟨.begin M A o RecordIndex, #[], ∅, 0⟩

def record? (s : Search M A o δ) (r : RecordIndex) : Option (Record σ δ) := s.records[r]?

/-- The record of a state, if the search has met the state. -/
def find? (s : Search M A o δ) (state : σ) : Option RecordIndex := s.index[state]?

def recordCount (s : Search M A o δ) : Nat := s.records.size

def color (s : Search M A o δ) (r : RecordIndex) : Color :=
  (s.records[r]?.map (·.color)).getD .white

/-- Changes a record, if there is one. -/
def modify (s : Search M A o δ) (r : RecordIndex) (change : Record σ δ → Record σ δ) :
    Search M A o δ :=
  ⟨s.traversal, s.records.modify r change, s.index, s.nextDiscovery⟩

/-- Changes the data of a record, if there is one. -/
def modifyData (s : Search M A o δ) (r : RecordIndex) (change : δ → δ) : Search M A o δ :=
  s.modify r fun rec => { rec with data := change rec.data }

/-- Moves the color of a record forward to `c`. -/
def mark (s : Search M A o δ) (r : RecordIndex) (c : Color) : Search M A o δ :=
  s.modify r fun rec => { rec with color := rec.color.advance c }

/-- The search over another stage of its traversal. -/
def withTraversal (s : Search M A o δ) (t : Traversal M A o RecordIndex) : Search M A o δ :=
  ⟨t, s.records, s.index, s.nextDiscovery⟩

/-- Takes a discovery number for a new record, if it is to have one, and leaves the number for the
next. -/
def takeNumber (o : Order) (n : Nat) : Option Nat × Nat :=
  match o with
  | .breadthFirst => (none, n)
  | .depthFirst => (some n, n + 1)

/-- The record of a state met for the first time. -/
def newRecord [Inhabited δ] (discovery : Option Nat) (state : σ) : Record σ δ :=
  ⟨state, default, .white, discovery⟩

/-- Enters a state met for the first time at the index `s.recordCount` and schedules it. -/
def enter [Inhabited δ] (s : Search M A o δ) (state : σ) : Search M A o δ :=
  let r := s.recordCount
  let p := takeNumber o s.nextDiscovery
  ⟨s.traversal.schedule state r, s.records.push (newRecord p.1 state), s.index.insert state r, p.2⟩

/-- Whether `target` was discovered before `source`. -/
def discoveredBefore (s : Search M A o δ) (target source : RecordIndex) : Bool :=
  match s.records[target]?.bind (·.discovery), s.records[source]?.bind (·.discovery) with
  | some v, some u => v < u
  | _, _ => false

/-- The kind of an edge between two records, the target having the color `c`. -/
def kindBetween (s : Search M A o δ) (source target : RecordIndex) (c : Color) : EdgeKind :=
  match o, c with
  | _, .gray => .back
  | .breadthFirst, .white => .cross
  | .breadthFirst, .black => .back
  | .depthFirst, _ => if s.discoveredBefore target source then .cross else .forward

/-- The kind of an edge to a state, the record of the state, and the search that has seen the
edge. -/
def edgeTo [Inhabited δ] (s : Search M A o δ) (source : RecordIndex) (target : σ) :
    EdgeKind × RecordIndex × Search M A o δ :=
  match s.find? target with
  | none => (.tree, s.recordCount, s.enter target)
  | some r =>
    (s.kindBetween source r (s.color r), r,
      if o = .breadthFirst ∧ s.color r = .white then s.mark r .gray else s)

/-- The index in the search of a record of the traversal. -/
def ownIndex (s : Search M A o δ) (r : RecordIndex) : RecordIndex :=
  (s.traversal.records[r]?.map (·.data)).getD r

def ownBacktrack (s : Search M A o δ) (b : Backtrack ι τ) : Backtrack ι τ :=
  ⟨s.ownIndex b.parent, b.letter, b.transition⟩

/-- Enters an event of the traversal into the records. -/
def observe [Inhabited δ] (s : Search M A o δ) :
    Exploration.Event σ ι τ → Event ι τ × Search M A o δ
  | .initial state =>
    match s.find? state with
    | some r => (.initial r, s)
    | none => (.initial s.recordCount, s.enter state)
  | .start r _ =>
    let v := s.ownIndex r
    (.start v, s.mark v .gray)
  | .edge r i x target =>
    let u := s.ownIndex r
    let e := s.edgeTo u target
    (.edge e.1 u i x e.2.1, e.2.2)
  | .finish r _ b =>
    let v := s.ownIndex r
    let c := b.map s.ownBacktrack
    (.finish v c, s.mark v .black)

/-- The next event; `none` when every state met has been explored. -/
def next [Inhabited δ] (s : Search M A o δ) : Option (Event ι τ) × Search M A o δ :=
  match s.traversal.next with
  | (none, t) => (none, s.withTraversal t)
  | (some e, t) =>
    let p := (s.withTraversal t).observe e
    (some p.1, p.2)

/-- Drops the remaining transitions of the current letter of the head of the frontier. -/
def skipLetter (s : Search M A o δ) : Except Error Unit × Search M A o δ :=
  let p := s.traversal.skipLetter
  (p.1, s.withTraversal p.2)

/-- Gives up the head of the frontier. A state given up depth-first keeps its color. -/
def skipState (s : Search M A o δ) : Except Error Unit × Search M A o δ :=
  let p := s.traversal.skipState
  (p.1, s.withTraversal p.2)

@[simp] theorem traversal_mark (s : Search M A o δ) (r : RecordIndex) (c : Color) :
    (s.mark r c).traversal = s.traversal := rfl

@[simp] theorem index_mark (s : Search M A o δ) (r : RecordIndex) (c : Color) :
    (s.mark r c).index = s.index := rfl

@[simp] theorem records_mark (s : Search M A o δ) (r : RecordIndex) (c : Color) :
    (s.mark r c).records =
      s.records.modify r fun rec => { rec with color := rec.color.advance c } := rfl

section Entering

variable [Inhabited δ]

@[simp] theorem traversal_enter (s : Search M A o δ) (state : σ) :
    (s.enter state).traversal = s.traversal.schedule state s.recordCount := rfl

@[simp] theorem records_enter (s : Search M A o δ) (state : σ) :
    (s.enter state).records =
      s.records.push (newRecord (takeNumber o s.nextDiscovery).1 state) := rfl

@[simp] theorem recordCount_enter (s : Search M A o δ) (state : σ) :
    (s.enter state).recordCount = s.recordCount + 1 :=
  Array.size_push ..

@[simp] theorem index_enter (s : Search M A o δ) (state : σ) :
    (s.enter state).index = s.index.insert state s.recordCount := rfl

@[simp] theorem nextDiscovery_enter (s : Search M A o δ) (state : σ) :
    (s.enter state).nextDiscovery = (takeNumber o s.nextDiscovery).2 := rfl

theorem find?_enter (s : Search M A o δ) (state other : σ) :
    (s.enter state).find? other =
      if state = other then some s.recordCount else s.find? other := by
  simp [find?, Std.HashMap.getElem?_insert]

/-- A search that reports nothing is left as it was. -/
theorem next_of_none {s u : Search M A o δ} (h : s.next = (none, u)) : u = s := by
  rw [next] at h
  split at h
  · next t ht =>
    obtain rfl := Traversal.next_of_none ht
    exact (Prod.mk.inj h).2.symm
  · simp at h

end Entering

end Search

end Exploration
