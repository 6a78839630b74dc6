import Mathlib.Data.List.Basic
import Exploration.Cursor

/-!
# The journal of a cursor

Every step of a cursor brings its own expansion, which may have a memory and change it whenever it
is asked about a row. `nextWith` is the step with such an expansion; where the answers depend on
the row alone it is `next`. `play` makes a list of requests and keeps a journal in which every row
that was expanded stands with what it was expanded to.
-/

namespace Exploration.Cursor

variable {ν ο α : Type}

/-- `nextRow` with an expansion that has a memory. -/
def nextRowWith (expand : ν → ο → List α × ν) (m : ν) :
    List ο → (Option (ο × α) × Cursor ο α) × ν
  | [] => ((none, ⟨[], none⟩), m)
  | o :: rows =>
    match expand m o with
    | ([], m) => nextRowWith expand m rows
    | (a :: rest, m) => ((some (o, a), ⟨rows, some (o, rest)⟩), m)

/-- `next` with an expansion that has a memory. -/
def nextWith (expand : ν → ο → List α × ν) (m : ν) (c : Cursor ο α) :
    (Option (ο × α) × Cursor ο α) × ν :=
  match c.current with
  | some (o, a :: rest) => ((some (o, a), ⟨c.rows, some (o, rest)⟩), m)
  | some (_, []) => nextRowWith expand m c.rows
  | none => nextRowWith expand m c.rows

section Plain

variable {expand : ν → ο → List α × ν} {f : ο → List α} (plain : ∀ m o, (expand m o).1 = f o)

include plain

theorem nextRowWith_fst (m : ν) (rows : List ο) :
    (nextRowWith expand m rows).1 = nextRow f rows := by
  induction rows generalizing m with
  | nil => rfl
  | cons o rows ih =>
    rw [nextRowWith, nextRow, ← plain m o]
    obtain ⟨_ | ⟨a, rest⟩, m'⟩ := expand m o
    · exact ih m'
    · rfl

/-- Where the items of a row depend on nothing else, the memory does not matter. -/
theorem nextWith_fst (m : ν) (c : Cursor ο α) : (nextWith expand m c).1 = c.next f := by
  obtain ⟨rows, _ | ⟨o, _ | ⟨a, rest⟩⟩⟩ := c
  · exact nextRowWith_fst plain m rows
  · exact nextRowWith_fst plain m rows
  · rfl

end Plain

/-- Asks about some rows one after the other. -/
def askAll (expand : ν → ο → List α × ν) (m : ν) : List ο → List (ο × List α) × ν
  | [] => ([], m)
  | o :: rows =>
    let first := expand m o
    let rest := askAll expand first.2 rows
    ((o, first.1) :: rest.1, rest.2)

/-- Notes every row that `expand` is asked about with its items. -/
def noting (expand : ν → ο → List α × ν) (m : ν × List (ο × List α)) (o : ο) :
    List α × ν × List (ο × List α) :=
  let asked := expand m.1 o
  (asked.1, asked.2, m.2 ++ [(o, asked.1)])

/-- The search for the first row with an item: the rows that were asked about, what was found and
the memory that was left. -/
inductive Finds (expand : ν → ο → List α × ν) :
    ν → List ο → List (ο × List α) → Option (ο × α) × Cursor ο α → ν → Prop
  | ended (m : ν) : Finds expand m [] [] (none, ⟨[], none⟩) m
  | passed {m m' n : ν} {o : ο} {rows : List ο} {seen : List (ο × List α)}
      {out : Option (ο × α) × Cursor ο α} (asked : expand m o = ([], m'))
      (later : Finds expand m' rows seen out n) :
      Finds expand m (o :: rows) ((o, []) :: seen) out n
  | found {m m' : ν} {o : ο} {a : α} {rest : List α} (asked : expand m o = (a :: rest, m'))
      (rows : List ο) :
      Finds expand m (o :: rows) [(o, a :: rest)] (some (o, a), ⟨rows, some (o, rest)⟩) m'

theorem exists_finds (expand : ν → ο → List α × ν) (m : ν) (es : List (ο × List α))
    (rows : List ο) : ∃ seen out n, Finds expand m rows seen out n ∧
      nextRowWith (noting expand) (m, es) rows = (out, n, es ++ seen) := by
  induction rows generalizing m es with
  | nil => exact ⟨[], _, m, .ended m, by rw [List.append_nil]; rfl⟩
  | cons o rows ih =>
    cases asked : expand m o with
    | mk items m' =>
      rw [nextRowWith, noting, asked]
      cases items with
      | nil =>
        obtain ⟨seen, out, n, later, same⟩ := ih m' (es ++ [(o, [])])
        refine ⟨(o, []) :: seen, out, n, .passed asked later, same.trans ?_⟩
        rw [List.append_assoc]
        rfl
      | cons a rest => exact ⟨_, _, _, .found asked rows, rfl⟩

namespace Finds

variable {expand : ν → ο → List α × ν} {m n : ν} {rows : List ο} {seen : List (ο × List α)}
  {out : Option (ο × α) × Cursor ο α}

/-- The rows seen were asked about once each, in order. -/
theorem askAll_eq (k : Finds expand m rows seen out n) :
    askAll expand m (seen.map Prod.fst) = (seen, n) := by
  induction k with
  | ended => rfl
  | passed asked later ih => rw [List.map_cons, askAll, asked, ih]
  | found asked rows => rw [List.map_cons, askAll, asked]; rfl

/-- Nothing is found exactly when no row has an item. -/
theorem fst_eq_none_iff (k : Finds expand m rows seen out n) :
    out.1 = none ↔ ∀ e ∈ (askAll expand m rows).1, e.2 = [] := by
  induction k with
  | ended => simp [askAll]
  | passed asked later ih => simp [askAll, asked, ih]
  | found asked rows => simp [askAll, asked]

end Finds

/-- A call for the next item goes on in the current row, or searches the rows behind it if nothing
is left there. -/
inductive Answers (expand : ν → ο → List α × ν) (c : Cursor ο α) (m : ν) :
    List (ο × List α) → Option (ο × α) × Cursor ο α → ν → Prop
  | within {o : ο} {a : α} {rest : List α} (left : c.current = some (o, a :: rest)) :
      Answers expand c m [] (some (o, a), ⟨c.rows, some (o, rest)⟩) m
  | beyond {seen : List (ο × List α)} {out : Option (ο × α) × Cursor ο α} {n : ν}
      (spent : ofRow c.current = []) (finds : Finds expand m c.rows seen out n) :
      Answers expand c m seen out n

theorem Answers.askAll_eq {expand : ν → ο → List α × ν} {c : Cursor ο α} {m n : ν}
    {seen : List (ο × List α)} {out : Option (ο × α) × Cursor ο α}
    (k : Answers expand c m seen out n) : askAll expand m (seen.map Prod.fst) = (seen, n) := by
  cases k with
  | within => rfl
  | beyond spent finds => exact finds.askAll_eq

theorem nextWith_of_spent {expand : ν → ο → List α × ν} {c : Cursor ο α}
    (spent : ofRow c.current = []) (m : ν) :
    c.nextWith expand m = nextRowWith expand m c.rows := by
  obtain ⟨rows, _ | ⟨o, _ | ⟨a, rest⟩⟩⟩ := c
  · rfl
  · rfl
  · cases spent

theorem exists_answers (expand : ν → ο → List α × ν) (c : Cursor ο α) (m : ν) :
    ∃ seen out n, Answers expand c m seen out n ∧
      c.nextWith (noting expand) (m, []) = (out, n, seen) := by
  have search (spent : ofRow c.current = []) : ∃ seen out n, Answers expand c m seen out n ∧
      c.nextWith (noting expand) (m, []) = (out, n, seen) := by
    obtain ⟨seen, out, n, finds, same⟩ := exists_finds expand m [] c.rows
    exact ⟨seen, out, n, .beyond spent finds, (nextWith_of_spent spent _).trans same⟩
  obtain ⟨rows, _ | ⟨o, _ | ⟨a, rest⟩⟩⟩ := c
  · exact search rfl
  · exact search rfl
  · exact ⟨[], _, m, .within rfl, rfl⟩

/-- A call made to a cursor. -/
inductive Request (ν ο α : Type) where
  | next (expand : ν → ο → List α × ν)
  | skipRow
  | stop

/-- What happened to a row or came of a call. -/
inductive Entry (ο α : Type) where
  | expanded (row : ο) (items : List α)
  | given (row : ο) (item : α)
  | ended
  | skipped
  | stopped
  deriving DecidableEq

/-- What a call for the next item came to. -/
def Entry.answer : Option (ο × α) → Entry ο α
  | none => .ended
  | some (o, a) => .given o a

/-- Makes a call and notes what came of it. -/
def perform : Request ν ο α → Cursor ο α → ν → List (Entry ο α) × Cursor ο α × ν
  | .next expand, c, m =>
    let p := c.nextWith (noting expand) (m, [])
    (p.2.2.map (fun e => .expanded e.1 e.2) ++ [.answer p.1.1], p.1.2, p.2.1)
  | .skipRow, c, m => ([.skipped], c.skipRow, m)
  | .stop, c, m => ([.stopped], c.stop, m)

/-- Makes some calls and keeps the journal. -/
def play : List (Request ν ο α) → Cursor ο α → ν → List (Entry ο α) × Cursor ο α × ν
  | [], c, m => ([], c, m)
  | r :: rs, c, m =>
    let first := perform r c m
    let rest := play rs first.2.1 first.2.2
    (first.1 ++ rest.1, rest.2)

/-- Each call for the next item notes the rows it asked about and then its answer. -/
theorem exists_perform_next (expand : ν → ο → List α × ν) (c : Cursor ο α) (m : ν) :
    ∃ seen out n, Answers expand c m seen out n ∧
      c.nextWith (noting expand) (m, []) = (out, n, seen) ∧
      perform (.next expand) c m =
        (seen.map (fun e => .expanded e.1 e.2) ++ [.answer out.1], out.2, n) := by
  obtain ⟨seen, out, n, answers, same⟩ := exists_answers expand c m
  exact ⟨seen, out, n, answers, same, by rw [perform, same]⟩

/-- Where nothing is left of the current row it makes no difference to a call if it is skipped. -/
theorem perform_skipRow_of_spent {c : Cursor ο α} (spent : ofRow c.current = [])
    (r : Request ν ο α) (m : ν) : perform r c.skipRow m = perform r c m := by
  cases r with
  | next expand =>
    have skipped : ofRow c.skipRow.current = [] := rfl
    rw [perform, perform, nextWith_of_spent spent, nextWith_of_spent skipped]
    rfl
  | skipRow => rfl
  | stop => rfl

/-- Nor to all that are made later. -/
theorem play_skipRow_of_spent {c : Cursor ο α} (spent : ofRow c.current = [])
    (rs : List (Request ν ο α)) (m : ν) :
    (play rs c.skipRow m).1 = (play rs c m).1 ∧ (play rs c.skipRow m).2.2 = (play rs c m).2.2 := by
  cases rs with
  | nil => exact ⟨rfl, rfl⟩
  | cons r rs =>
    rw [play, play, perform_skipRow_of_spent spent]
    exact ⟨rfl, rfl⟩

end Exploration.Cursor
