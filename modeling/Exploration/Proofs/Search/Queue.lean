import Exploration.Proofs.Search.Forest
import Exploration.Proofs.Search.Run

/-!
# The queue of a breadth-first search

Breadth-first a skip leaves every pending visit in its place, so a history is determined by its
events: `View.Sweeps` reaches all views that matter. The pending records are then the ones with
the greatest numbers, in order, at most the first of them was started, and records are started
in the order of their numbers. `Queued evs w k j` says so of a view in which `k` records were
finished and `j` were started.
-/

namespace Exploration.Search

variable {σ ι τ : Type}

/-- The record a start is reported of. -/
def Event.started? : Event ι τ → Option RecordIndex
  | .start r => some r
  | .initial _ => none
  | .edge _ _ _ _ _ => none
  | .finish _ _ => none

/-- The records started, in order. -/
def started (evs : List (Event ι τ)) : List RecordIndex := evs.filterMap Event.started?

theorem started_append (evs more : List (Event ι τ)) :
    started (evs ++ more) = started evs ++ started more :=
  List.filterMap_append

theorem started_snoc (evs : List (Event ι τ)) (e : Event ι τ) :
    started (evs ++ [e]) = started evs ++ e.started?.toList := by
  cases h : e.started? <;> simp [started, h]

namespace View

variable {M : TransitionSystem σ ι τ} {A : List ι} {evs : List (Event ι τ)} {w w' : View σ ι τ}

/-- The events `evs` lead to the view `w` breadth-first, whatever was skipped. -/
inductive Sweeps (M : TransitionSystem σ ι τ) (A : List ι) :
    List (Event ι τ) → View σ ι τ → Prop
  | begin : Sweeps M A [] (begin M)
  | event {evs : List (Event ι τ)} {w w' : View σ ι τ} {e : Event ι τ} (before : Sweeps M A evs w)
      (last : w.Advances M A .breadthFirst e w') : Sweeps M A (evs ++ [e]) w'
  | skip {evs : List (Event ι τ)} {w : View σ ι τ} {pending : List (Visit σ ι τ RecordIndex)}
      (before : Sweeps M A evs w) (same : (w.withPending pending).outline = w.outline) :
      Sweeps M A evs (w.withPending pending)

theorem Reached.sweeps {h : List (Report ι τ)} (reached : Reached M A .breadthFirst h w) :
    Sweeps M A (events h) w := by
  induction reached with
  | begin => exact .begin
  | @move h w w' x before last ih =>
    rw [events_snoc]
    cases last with
    | event advance => exact ih.event advance
    | ended unread pending => simpa [Report.event?] using ih
    | @skippedLetter v rest head =>
      have same := outline_of_step (a := v.skipLetter) head rfl rfl
      simpa [Report.event?] using ih.skip same
    | @skippedState v rest head =>
      have same := outline_of_step (a := v.skipAll) head rfl rfl
      simpa [Report.event?, Order.giveUp] using ih.skip same
    | refused pending => simpa [Report.event?] using ih
    | modified => simpa [Report.event?] using ih

theorem Runs.sweeps (run : Runs M A .breadthFirst evs w) : Sweeps M A evs w := by
  simpa using run.reached.sweeps

theorem outline_enter_breadthFirst (A : List ι) (w : View σ ι τ) (t : σ) :
    (w.enter A .breadthFirst t).outline = w.outline ++ [(w.states.length, false)] := by
  simp [outline, enter, Order.place, Visit.planned]

/-- A color that is not white stays so. -/
theorem color_paint_ne_white {r q : RecordIndex} (c : Color) (h : w.color q ≠ .white) :
    (w.paint r c).color q ≠ .white := by
  intro white
  simp only [paint] at white
  split at white
  · cases hq : w.color q <;> cases c <;> simp_all [Color.advance, Color.rank]
  · exact h white

theorem color_paint_gray_ne_white {r : RecordIndex} : (w.paint r .gray).color r ≠ .white := by
  cases h : w.color r <;> simp [paint, h, Color.advance, Color.rank]

theorem color_note_ne_white {o : Order} {r q : RecordIndex} (h : w.color q ≠ .white) :
    (w.note o r).color q ≠ .white := by
  rw [note]
  split
  · exact color_paint_ne_white .gray h
  · exact h

theorem outline_note (o : Order) (w : View σ ι τ) (r : RecordIndex) :
    (w.note o r).outline = w.outline := by
  rw [note]
  split <;> rfl

theorem kindOf_eq_cross_iff_white {u r : RecordIndex} :
    w.kindOf .breadthFirst u r = .cross ↔ w.color r = .white := by
  cases h : w.color r <;> simp [kindOf, h]

structure Queued (evs : List (Event ι τ)) (w : View σ ι τ) (k j : Nat) : Prop where
  total : w.states.length = k + w.outline.length
  labels : w.outline.map Prod.fst = List.range' k w.outline.length
  begun : ∀ a : Nat × Bool, a ∈ w.outline → (a.2 = true ↔ a.1 < j)
  started : started evs = List.range j
  finished_le : k ≤ j
  started_le : j ≤ k + 1
  started_le_total : j ≤ w.states.length
  opening : w.unread ≠ [] → j = 0
  dark : ∀ r : Nat, r < j → w.color r ≠ .white
  edges : ∀ kind (u v : Nat) i x, .edge kind u i x v ∈ evs →
    u < j ∧ v < w.states.length ∧ (kind = .cross → u < v)

namespace Queued

variable {k j : Nat}

theorem begin : Queued ([] : List (Event ι τ)) (begin M) 0 0 where
  total := rfl
  labels := rfl
  begun := by simp [outline, View.begin]
  started := rfl
  finished_le := Nat.le_refl 0
  started_le := Nat.zero_le 1
  started_le_total := Nat.zero_le _
  opening _ := rfl
  dark := by simp
  edges := by simp

theorem mem_outline (q : Queued evs w k j) {a : Nat × Bool} (ha : a ∈ w.outline) :
    k ≤ a.1 ∧ a.1 < w.states.length := by
  have mem : a.1 ∈ List.range' k w.outline.length := q.labels ▸ List.mem_map_of_mem ha
  have total := q.total
  rw [List.mem_range'_1] at mem
  omega

theorem bounded (q : Queued evs w k j) : ∀ v ∈ w.pending, v.label < w.states.length :=
  fun _ hv => (q.mem_outline (List.mem_map_of_mem hv)).2

/-- The head of the queue is the first record that was not finished. -/
theorem head (q : Queued evs w k j) {a : Nat × Bool} {rest : List (Nat × Bool)}
    (h : w.outline = a :: rest) : a.1 = k ∧ rest.map Prod.fst = List.range' (k + 1) rest.length := by
  have labels := q.labels
  rw [h, List.map_cons, List.length_cons, List.range'_succ] at labels
  exact List.cons.inj labels

/-- Colors may darken and initial states may be read. -/
theorem carry (q : Queued evs w k j) (outline : w'.outline = w.outline)
    (states : w'.states = w.states) (unread : w'.unread ≠ [] → w.unread ≠ [])
    (dark : ∀ r, w.color r ≠ .white → w'.color r ≠ .white) : Queued evs w' k j where
  total := by rw [outline, states]; exact q.total
  labels := by rw [outline]; exact q.labels
  begun := by rw [outline]; exact q.begun
  started := q.started
  finished_le := q.finished_le
  started_le := q.started_le
  started_le_total := by rw [states]; exact q.started_le_total
  opening h := q.opening (unread h)
  dark r hr := dark r (q.dark r hr)
  edges := by rw [states]; exact q.edges

theorem enter (q : Queued evs w k j) (A : List ι) (t : σ) :
    Queued evs (w.enter A .breadthFirst t) k j where
  total := by
    rw [outline_enter_breadthFirst, length_enter, List.length_append, q.total]
    rfl
  labels := by
    rw [outline_enter_breadthFirst, List.map_append, List.length_append, q.labels, q.total]
    exact List.range'_1_concat.symm
  begun a ha := by
    rw [outline_enter_breadthFirst] at ha
    rcases List.mem_append.1 ha with ha | ha
    · exact q.begun a ha
    · rw [List.mem_singleton.1 ha]
      have bound := q.started_le_total
      simp only [Bool.false_eq_true, false_iff]
      omega
  started := q.started
  finished_le := q.finished_le
  started_le := q.started_le
  started_le_total := by
    rw [length_enter]
    have bound := q.started_le_total
    omega
  opening := q.opening
  dark := q.dark
  edges kind u v i x he := by
    obtain ⟨hu, hv, forward⟩ := q.edges kind u v i x he
    rw [length_enter]
    exact ⟨hu, by omega, forward⟩

/-- An event that starts nothing; if it is an edge, its source was started. -/
theorem quiet (q : Queued evs w k j) {e : Event ι τ} (quiet : e.started? = none)
    (edge : ∀ kind (u v : Nat) i x, e = .edge kind u i x v →
      u < j ∧ v < w.states.length ∧ (kind = .cross → u < v)) : Queued (evs ++ [e]) w k j where
  total := q.total
  labels := q.labels
  begun := q.begun
  started := by simpa [started_snoc, quiet] using q.started
  finished_le := q.finished_le
  started_le := q.started_le
  started_le_total := q.started_le_total
  opening := q.opening
  dark := q.dark
  edges kind u v i x he := by
    rcases List.mem_append.1 he with he | he
    · exact q.edges kind u v i x he
    · exact edge kind u v i x (List.mem_singleton.1 he).symm

/-- The record started next has the next number. -/
theorem last_started {more : List (Event ι τ)} (q : Queued (evs ++ more) w k j) {r : Nat}
    (h : Search.started more = [r]) : r = (Search.started evs).length := by
  have all : Search.started evs ++ [r] = List.range j := by
    rw [← q.started, ← h, started_append]
  have count := congrArg List.length all
  rw [List.length_append, List.length_singleton, List.length_range] at count
  have last := congrArg (·[(Search.started evs).length]?) all
  rw [List.getElem?_concat_length, List.getElem?_range (by omega)] at last
  exact Option.some.inj last

theorem label_of_head (q : Queued evs w k j) {v : Visit σ ι τ Nat} {rest : List (Visit σ ι τ Nat)}
    (head : w.pending = v :: rest) : v.label = k :=
  (q.head (outline_of_cons head)).1

theorem label_lt_of_begun (q : Queued evs w k j) {v : Visit σ ι τ Nat} (hv : v ∈ w.pending)
    (begun : v.started = true) : v.label < j :=
  (q.begun (v.label, v.started) (List.mem_map_of_mem hv)).1 begun

/-- Behind the head nothing was started. -/
theorem waiting (q : Queued evs w k j) {a : Nat × Bool} {rest : List (Nat × Bool)}
    (h : w.outline = a :: rest) : ∀ b ∈ rest, k + 1 ≤ b.1 ∧ b.2 = false := by
  intro b hb
  have behind : b.1 ∈ List.range' (k + 1) rest.length := (q.head h).2 ▸ List.mem_map_of_mem hb
  have low := (List.mem_range'_1.1 behind).1
  have begun := q.begun b (h ▸ List.mem_cons_of_mem a hb)
  have bound := q.started_le
  constructor
  · exact low
  · have off : ¬ b.1 < j := by omega
    simpa [off] using begun

/-- The head is started as the one with the next number. -/
theorem start (q : Queued evs w k j) {v : Visit σ ι τ RecordIndex}
    {rest : List (Visit σ ι τ RecordIndex)} (unread : w.unread = []) (head : w.pending = v :: rest)
    (fresh : v.started = false) : Queued (evs ++ [.start v.label])
      ((w.withPending (v.start :: rest)).paint v.label .gray) k (j + 1) := by
  have cons := outline_of_cons head
  have hv : v.label = k := q.label_of_head head
  have hj : j = k := by
    have begun := q.begun (v.label, v.started) (cons ▸ List.mem_cons_self)
    simp only [fresh, hv, Bool.false_eq_true, false_iff] at begun
    have low := q.finished_le
    omega
  have outline : ((w.withPending (v.start :: rest)).paint v.label .gray).outline =
      (v.label, true) :: (w.withPending rest).outline := rfl
  have total := q.total
  rw [cons, List.length_cons] at total
  constructor
  case total =>
    rw [outline, List.length_cons]
    exact total
  case labels =>
    have labels := q.labels
    rw [cons] at labels
    rw [outline]
    exact labels
  case begun =>
    intro a ha
    rw [outline] at ha
    rcases List.mem_cons.1 ha with rfl | ha
    · simp [hv, hj]
    · obtain ⟨low, waits⟩ := q.waiting cons a ha
      simp only [waits, Bool.false_eq_true, false_iff]
      omega
  case started =>
    rw [started_snoc, q.started, List.range_succ, hj, hv]
    rfl
  case finished_le => omega
  case started_le => omega
  case started_le_total =>
    change j + 1 ≤ w.states.length
    omega
  case opening =>
    intro h
    exact absurd unread h
  case dark =>
    intro r hr
    by_cases he : r = k
    · rw [he, ← hv]
      exact color_paint_gray_ne_white
    · apply color_paint_ne_white
      exact q.dark r (by omega)
  case edges =>
    intro kind u v' i x he
    obtain ⟨hu, rest⟩ := q.edges kind u v' i x (by simpa using he)
    exact ⟨by omega, rest⟩

theorem finish (q : Queued evs w k j) {v : Visit σ ι τ RecordIndex}
    {rest : List (Visit σ ι τ RecordIndex)} (head : w.pending = v :: rest)
    (begun : v.started = true) (b : Option (Backtrack ι τ)) :
    Queued (evs ++ [.finish v.label b]) ((w.withPending rest).paint v.label .black) (k + 1) j := by
  have cons := outline_of_cons head
  have hj : k < j := q.label_of_head head ▸ q.label_lt_of_begun (head ▸ List.mem_cons_self) begun
  have outline : ((w.withPending rest).paint v.label .black).outline =
      (w.withPending rest).outline := rfl
  have total := q.total
  rw [cons, List.length_cons] at total
  constructor
  case total =>
    rw [outline]
    change w.states.length = _
    omega
  case labels => exact (q.head cons).2
  case begun =>
    intro a ha
    exact q.begun a (cons ▸ List.mem_cons_of_mem _ ha)
  case started =>
    simpa [started_snoc, Event.started?] using q.started
  case finished_le => exact hj
  case started_le =>
    have bound := q.started_le
    omega
  case started_le_total => exact q.started_le_total
  case opening => exact q.opening
  case dark => exact fun r hr => color_paint_ne_white .black (q.dark r hr)
  case edges =>
    intro kind u v' i x he
    exact q.edges kind u v' i x (by simpa using he)

theorem advances (q : Queued evs w k j) {e : Event ι τ}
    (adv : w.Advances M A .breadthFirst e w') : ∃ k' j', Queued (evs ++ [e]) w' k' j' := by
  cases adv with
  | @known t rest r idle unread met =>
    have read : Queued evs { w with unread := rest } k j :=
      q.carry rfl rfl (fun _ => by simp [unread]) fun _ h => h
    exact ⟨k, j, read.quiet rfl (by simp)⟩
  | @root t rest idle unread new =>
    have read : Queued evs { w with unread := rest } k j :=
      q.carry rfl rfl (fun _ => by simp [unread]) fun _ h => h
    exact ⟨k, j, (read.enter A t).quiet rfl (by simp)⟩
  | start ready head fresh =>
    exact ⟨k, j + 1, q.start (ready.resolve_left (by decide)) head fresh⟩
  | @tree v v' rest i x ready head begun step new =>
    obtain ⟨-, label, -, same, -⟩ := Visit.next_of_some step
    have turned : Queued evs (w.withPending (v' :: rest)) k j :=
      q.carry (outline_of_step head label same) rfl (fun h => h) fun _ h => h
    refine ⟨k, j, (turned.enter A _).quiet rfl ?_⟩
    rintro kind u _ i x ⟨⟩
    rw [length_enter]
    exact ⟨q.label_lt_of_begun (head ▸ List.mem_cons_self) begun, Nat.lt_succ_self _, nofun⟩
  | @edge v v' rest i x r ready head begun step met =>
    obtain ⟨-, label, -, same, -⟩ := Visit.next_of_some step
    have turned : Queued evs ((w.withPending (v' :: rest)).note .breadthFirst r) k j :=
      q.carry ((outline_note _ _ _).trans (outline_of_step head label same)) (states_note _ _ _)
        (fun h => by rwa [unread_note] at h) fun _ h => color_note_ne_white h
    refine ⟨k, j, turned.quiet rfl ?_⟩
    rintro kind u v i x ⟨⟩
    have hu : v.label < j := q.label_lt_of_begun (head ▸ List.mem_cons_self) begun
    rw [states_note]
    refine ⟨hu, (List.getElem?_eq_some_iff.1 met).1, fun cross => ?_⟩
    -- A white target was not started, so it stands behind the head.
    have white := kindOf_eq_cross_iff_white.1 cross
    have unstarted : ¬ r < j := fun lt => q.dark r lt white
    exact Nat.lt_of_lt_of_le hu (Nat.le_of_not_lt unstarted)
  | finish ready head begun step => exact ⟨k + 1, j, q.finish head begun _⟩

end Queued

theorem Sweeps.queued (sweep : Sweeps M A evs w) : ∃ k j, Queued evs w k j := by
  induction sweep with
  | begin => exact ⟨0, 0, .begin⟩
  | event before last ih =>
    obtain ⟨k, j, q⟩ := ih
    exact q.advances last
  | skip before same ih =>
    obtain ⟨k, j, q⟩ := ih
    exact ⟨k, j, q.carry same rfl (fun h => h) fun _ h => h⟩

end View

end Exploration.Search
