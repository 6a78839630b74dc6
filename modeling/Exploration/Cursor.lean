/-!
# Cursors over rows

A cursor walks a list of rows, each of which expands to a list of items. The expansion is
handed to every step instead of being stored, so a suspended cursor holds only its place.
`toList` is what is still to come under one expansion, and `toList_next` says that a step
takes its head.
-/

namespace Exploration

structure Cursor (ο α : Type) where
  rows : List ο
  /-- The row being read and what is left of it. -/
  current : Option (ο × List α) := none

namespace Cursor

variable {ο α : Type}

/-- The first item of the first row that has one. -/
def nextRow (expand : ο → List α) : List ο → Option (ο × α) × Cursor ο α
  | [] => (none, ⟨[], none⟩)
  | o :: rows =>
    match expand o with
    | [] => nextRow expand rows
    | a :: rest => (some (o, a), ⟨rows, some (o, rest)⟩)

/-- The next item with its row; rows without items are passed over. -/
def next (expand : ο → List α) (c : Cursor ο α) : Option (ο × α) × Cursor ο α :=
  match c.current with
  | some (o, a :: rest) => (some (o, a), ⟨c.rows, some (o, rest)⟩)
  | some (_, []) => nextRow expand c.rows
  | none => nextRow expand c.rows

/-- Drops what is left of the current row. -/
def skipRow (c : Cursor ο α) : Cursor ο α := ⟨c.rows, none⟩

/-- Drops everything that is left. -/
def stop (_ : Cursor ο α) : Cursor ο α := ⟨[], none⟩

/-- The items left in the current row. -/
def ofRow : Option (ο × List α) → List (ο × α)
  | none => []
  | some (o, rest) => rest.map (o, ·)

/-- All items still to come if `expand` is used throughout. -/
def toList (expand : ο → List α) (c : Cursor ο α) : List (ο × α) :=
  ofRow c.current ++ c.rows.flatMap fun o => (expand o).map (o, ·)

theorem toList_nextRow (expand : ο → List α) (rows : List ο) :
    (rows.flatMap fun o => (expand o).map (o, ·)) =
      (nextRow expand rows).1.toList ++ (nextRow expand rows).2.toList expand := by
  induction rows with
  | nil => rfl
  | cons o rows ih =>
    cases h : expand o with
    | nil => simpa [nextRow, h] using ih
    | cons a rest => simp [nextRow, h, toList, ofRow]

/-- A step takes the head of what is to come. -/
theorem toList_next (expand : ο → List α) (c : Cursor ο α) :
    c.toList expand = (c.next expand).1.toList ++ (c.next expand).2.toList expand := by
  obtain ⟨rows, _ | ⟨o, _ | ⟨a, rest⟩⟩⟩ := c
  · exact toList_nextRow expand rows
  · exact toList_nextRow expand rows
  · rfl

theorem nextRow_eq_none {expand : ο → List α} {rows : List ο}
    (h : (nextRow expand rows).1 = none) : nextRow expand rows = (none, ⟨[], none⟩) := by
  induction rows with
  | nil => rfl
  | cons o rows ih =>
    cases he : expand o with
    | nil => simp only [nextRow, he] at h ⊢; exact ih h
    | cons a rest => simp [nextRow, he] at h

/-- A cursor that gives nothing is left at its end. -/
theorem next_eq_none {expand : ο → List α} {c : Cursor ο α} (h : (c.next expand).1 = none) :
    c.next expand = (none, ⟨[], none⟩) := by
  obtain ⟨rows, _ | ⟨o, _ | ⟨a, rest⟩⟩⟩ := c
  · exact nextRow_eq_none h
  · exact nextRow_eq_none h
  · simp [next] at h

theorem toList_of_next_eq_none {expand : ο → List α} {c : Cursor ο α}
    (h : (c.next expand).1 = none) : c.toList expand = [] := by
  rw [toList_next, next_eq_none h]
  rfl

theorem toList_of_next_eq_some {expand : ο → List α} {c d : Cursor ο α} {p : ο × α}
    (h : c.next expand = (some p, d)) : c.toList expand = p :: d.toList expand := by
  rw [toList_next, h]
  rfl

@[simp] theorem toList_skipRow (expand : ο → List α) (c : Cursor ο α) :
    c.skipRow.toList expand = c.rows.flatMap fun o => (expand o).map (o, ·) := rfl

@[simp] theorem toList_stop (expand : ο → List α) (c : Cursor ο α) :
    c.stop.toList expand = [] := rfl

@[simp] theorem next_stop (expand : ο → List α) (c : Cursor ο α) :
    c.stop.next expand = (none, c.stop) := rfl

/-- Skipping a row never brings items back. -/
theorem length_toList_skipRow_le (expand : ο → List α) (c : Cursor ο α) :
    (c.skipRow.toList expand).length ≤ (c.toList expand).length := by
  rw [toList_skipRow, toList, List.length_append]
  omega

/-- Steps until nothing is left. -/
def drain (expand : ο → List α) (c : Cursor ο α) : List (ο × α) × Cursor ο α :=
  match _h : c.next expand with
  | (none, d) => ([], d)
  | (some p, d) =>
    let (ps, last) := drain expand d
    (p :: ps, last)
termination_by (c.toList expand).length
decreasing_by simp [toList_of_next_eq_some _h]

theorem drain_eq (expand : ο → List α) (c : Cursor ο α) :
    c.drain expand = (c.toList expand, ⟨[], none⟩) := by
  fun_induction drain expand c with
  | case1 c d h =>
    have hn : (c.next expand).1 = none := by rw [h]
    obtain rfl : d = ⟨[], none⟩ := by simpa [h] using next_eq_none hn
    rw [toList_of_next_eq_none hn]
  | case2 c p d h ps last hd ih =>
    rw [hd] at ih
    rw [toList_of_next_eq_some h, (Prod.mk.inj ih).1, (Prod.mk.inj ih).2]

end Cursor

end Exploration
