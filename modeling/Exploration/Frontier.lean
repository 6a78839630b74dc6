import Exploration.Order

/-!
# Frontiers

The entries waiting to be explored, head first. A frontier is kept as two lists so that both
ends take constant time over a run; `toList` is the order in which the entries are met, and each
operation has one equation through it.
-/

namespace Exploration

structure Frontier (ε : Type) where
  ready : List ε := []
  /-- The entries behind those of `ready`, last first. -/
  waiting : List ε := []

namespace Frontier

variable {ε : Type}

def toList (f : Frontier ε) : List ε := f.ready ++ f.waiting.reverse

def empty : Frontier ε := {}

def isEmpty (f : Frontier ε) : Bool := f.ready.isEmpty && f.waiting.isEmpty

def head? (f : Frontier ε) : Option ε := f.ready.head?.or f.waiting.getLast?

/-- The head and the frontier without it. -/
def pop? (f : Frontier ε) : Option (ε × Frontier ε) :=
  match f.ready with
  | e :: rest => some (e, ⟨rest, f.waiting⟩)
  | [] =>
    match f.waiting.reverse with
    | e :: rest => some (e, ⟨rest, []⟩)
    | [] => none

def pushFront (e : ε) (f : Frontier ε) : Frontier ε := ⟨e :: f.ready, f.waiting⟩

def pushBack (e : ε) (f : Frontier ε) : Frontier ε := ⟨f.ready, e :: f.waiting⟩

/-- A new entry goes behind all others in breadth-first order and before them in depth-first
order. -/
def push (o : Order) (e : ε) (f : Frontier ε) : Frontier ε :=
  match o with
  | .breadthFirst => f.pushBack e
  | .depthFirst => f.pushFront e

@[simp] theorem toList_empty : (empty : Frontier ε).toList = [] := rfl

@[simp] theorem toList_pushFront (e : ε) (f : Frontier ε) :
    (f.pushFront e).toList = e :: f.toList := rfl

@[simp] theorem toList_pushBack (e : ε) (f : Frontier ε) :
    (f.pushBack e).toList = f.toList ++ [e] := by
  simp [pushBack, toList]

@[simp] theorem toList_push_breadthFirst (e : ε) (f : Frontier ε) :
    (f.push .breadthFirst e).toList = f.toList ++ [e] :=
  toList_pushBack e f

@[simp] theorem toList_push_depthFirst (e : ε) (f : Frontier ε) :
    (f.push .depthFirst e).toList = e :: f.toList := rfl

theorem isEmpty_iff {f : Frontier ε} : f.isEmpty = true ↔ f.toList = [] := by
  simp [isEmpty, toList]

theorem head?_eq (f : Frontier ε) : f.head? = f.toList.head? := by
  obtain ⟨_ | _, _⟩ := f <;> simp [head?, toList]

theorem toList_of_pop?_eq_some {f g : Frontier ε} {e : ε} (h : f.pop? = some (e, g)) :
    f.toList = e :: g.toList := by
  obtain ⟨_ | ⟨a, rest⟩, waiting⟩ := f
  · cases hw : waiting.reverse with
    | nil => simp [pop?, hw] at h
    | cons a rest =>
      simp only [pop?, hw, Option.some.injEq, Prod.mk.injEq] at h
      obtain ⟨rfl, rfl⟩ := h
      simp [toList, hw]
  · simp only [pop?, Option.some.injEq, Prod.mk.injEq] at h
    obtain ⟨rfl, rfl⟩ := h
    rfl

theorem pop?_eq_none_iff {f : Frontier ε} : f.pop? = none ↔ f.toList = [] := by
  constructor
  · intro h
    obtain ⟨_ | ⟨a, rest⟩, waiting⟩ := f
    · cases hw : waiting.reverse with
      | nil => simp [toList, hw]
      | cons a rest => simp [pop?, hw] at h
    · simp [pop?] at h
  · intro h
    cases hp : f.pop? with
    | none => rfl
    | some p =>
      obtain ⟨e, g⟩ := p
      rw [toList_of_pop?_eq_some hp] at h
      cases h

/-- What the entries of a list weigh together. -/
def total (w : ε → Nat) : List ε → Nat
  | [] => 0
  | e :: rest => w e + total w rest

theorem total_append (w : ε → Nat) (es fs : List ε) :
    total w (es ++ fs) = total w es + total w fs := by
  induction es with
  | nil => exact (Nat.zero_add _).symm
  | cons e rest ih =>
    rw [List.cons_append, total, total, ih]
    omega

/-- What the entries weigh together. -/
def weight (w : ε → Nat) (f : Frontier ε) : Nat := total w f.toList

@[simp] theorem weight_pushFront (w : ε → Nat) (e : ε) (f : Frontier ε) :
    (f.pushFront e).weight w = w e + f.weight w := rfl

@[simp] theorem weight_pushBack (w : ε → Nat) (e : ε) (f : Frontier ε) :
    (f.pushBack e).weight w = f.weight w + w e := by
  rw [weight, toList_pushBack, total_append]
  rfl

theorem weight_push (w : ε → Nat) (o : Order) (e : ε) (f : Frontier ε) :
    (f.push o e).weight w = f.weight w + w e := by
  cases o
  · exact weight_pushBack w e f
  · exact (weight_pushFront w e f).trans (Nat.add_comm _ _)

theorem weight_of_pop? {w : ε → Nat} {f g : Frontier ε} {e : ε} (h : f.pop? = some (e, g)) :
    f.weight w = w e + g.weight w := by
  rw [weight, toList_of_pop?_eq_some h]
  rfl

end Frontier

end Exploration
