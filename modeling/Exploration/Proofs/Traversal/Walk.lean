import Exploration.Proofs.Cursor.Places
import Exploration.Proofs.Traversal.Backtrack
import Exploration.Proofs.Traversal.Waiting

/-!
# The walk of a record

The transitions of a state lie in a list, letter by letter, each with the position of its letter:
the `layout`. The edges of a record go along this list without leaving a place out, except that a
skip leaves out the rest of a letter, or all that is left. What is kept of this is only a cursor
without positions, suspended whenever another record comes first: `Stands` says that it goes on at
the place where the edges reported so far, and the skips after the last of them, have led.
-/

namespace Exploration

variable {σ ι τ δ : Type} {M : TransitionSystem σ ι τ} {A : List ι} {o : Order}

/-- The transitions of a state, letter by letter, each with its letter and the position of that. -/
def TransitionSystem.layout (M : TransitionSystem σ ι τ) (A : List ι) (s : σ) :
    List ((ι × Nat) × τ) :=
  A.zipIdx.flatMap fun p => (M.transitions s p.1).map (p, ·)

namespace Traversal

theorem Report.edgeFrom?_eq_none {y : Report σ ι τ} {r : RecordIndex}
    (about : y.target? ≠ some r) : y.edgeFrom? r = none := by
  rw [Option.eq_none_iff_forall_ne_some]
  intro p given
  obtain ⟨u, rfl⟩ := edgeFrom?_eq_some_iff.1 given
  exact about rfl

/-- The transitions reported of the record `r`. -/
def edgesFrom (r : RecordIndex) (h : List (Report σ ι τ)) : List (ι × τ) :=
  h.filterMap (Report.edgeFrom? r)

theorem edgesFrom_append (r : RecordIndex) (h h' : List (Report σ ι τ)) :
    edgesFrom r (h ++ h') = edgesFrom r h ++ edgesFrom r h' :=
  List.filterMap_append

theorem edgesFrom_singleton (r : RecordIndex) (y : Report σ ι τ) :
    edgesFrom r [y] = (y.edgeFrom? r).toList := by
  cases he : y.edgeFrom? r <;> simp [edgesFrom, he]

/-- The rest of a letter of `r` was skipped after the last edge from it. -/
def SkippedSince (h : List (Report σ ι τ)) (r : RecordIndex) : Prop :=
  ∃ before after, h = before ++ .skippedLetter r :: after ∧ edgesFrom r after = []

section Histories

variable {h : List (Report σ ι τ)} {y : Report σ ι τ} {r : RecordIndex} {s : σ}
  {places : List Nat}

theorem skippedSince_snoc : SkippedSince (h ++ [y]) r ↔
    y = .skippedLetter r ∨ SkippedSince h r ∧ y.edgeFrom? r = none := by
  constructor
  · rintro ⟨before, after, split, quiet⟩
    rcases snoc_eq_append_cons_iff.1 split with ⟨-, rfl, -⟩ | ⟨after, rfl, rfl⟩
    · exact .inl rfl
    · rw [edgesFrom_append, edgesFrom_singleton] at quiet
      obtain ⟨quiet, silent⟩ := List.append_eq_nil_iff.1 quiet
      exact .inr ⟨⟨before, after, rfl, quiet⟩, Option.toList_eq_nil_iff.1 silent⟩
  · rintro (rfl | ⟨⟨before, after, rfl, quiet⟩, silent⟩)
    · exact ⟨h, [], rfl, rfl⟩
    · refine ⟨before, after ++ [y], by simp, ?_⟩
      rw [edgesFrom_append, quiet, edgesFrom_singleton, silent]
      rfl

/-- The places of the layout where the walk of `r` may go on after the reports `h`, if `places` are
those of its edges. -/
def ahead (M : TransitionSystem σ ι τ) (A : List ι) (r : RecordIndex) (s : σ) (places : List Nat)
    (h : List (Report σ ι τ)) : Set Nat :=
  {j | Cursor.Open (M.layout A s) (places.take (edgesFrom r h).length).getLast?
    (SkippedSince h r) j}

/-- The edges from the record `r`, of the state `s`, lie at `places` of its layout: each at the
first place ahead. A finish leaves no place ahead. -/
structure Along (M : TransitionSystem σ ι τ) (A : List ι) (h : List (Report σ ι τ))
    (r : RecordIndex) (s : σ) (places : List Nat) : Prop where
  count : places.length = (edgesFrom r h).length
  edge : ∀ before after i x u, h = before ++ .event (.edge r i x u) :: after →
    .skippedState r ∉ before ∧ u = M.successor x ∧
      ∃ j k, places[(edgesFrom r before).length]? = some j ∧
        (M.layout A s)[j]? = some ((i, k), x) ∧ IsLeast (ahead M A r s places before) j
  finish : ∀ before after q b, h = before ++ .event (.finish r q b) :: after →
    .skippedState r ∉ before → ahead M A r s places before = ∅

theorem ahead_append {h : List (Report σ ι τ)} (few : (edgesFrom r h).length ≤ places.length)
    (more : List Nat) : ahead M A r s (places ++ more) h = ahead M A r s places h := by
  rw [ahead, List.take_append_of_le_length few, ahead]

namespace Along

/-- Nothing was reported of a new record. -/
theorem new (none : ∀ y ∈ h, y.target? ≠ some r) (s : σ) : Along M A h r s [] where
  count := by
    have silent : edgesFrom r h = [] := by
      rw [edgesFrom, List.filterMap_eq_nil_iff]
      intro y hy
      exact Report.edgeFrom?_eq_none (none y hy)
    rw [silent]
    rfl
  edge before after i x u split :=
    absurd rfl (none _ (split ▸ List.mem_append_right before List.mem_cons_self))
  finish before after q b split :=
    absurd rfl (none _ (split ▸ List.mem_append_right before List.mem_cons_self))

theorem few (k : Along M A h r s places) {before after : List (Report σ ι τ)} {x : Report σ ι τ}
    (split : h = before ++ x :: after) : (edgesFrom r before).length ≤ places.length := by
  rw [k.count, split, edgesFrom_append, List.length_append]
  exact Nat.le_add_right _ _

theorem ahead_eq (k : Along M A h r s places) : ahead M A r s places h =
    {j | Cursor.Open (M.layout A s) places.getLast? (SkippedSince h r) j} := by
  rw [ahead, ← k.count, List.take_length]

/-- A report that is neither an edge from the record nor its finish. -/
theorem quiet (k : Along M A h r s places) (silent : y.edgeFrom? r = none)
    (onward : ∀ q b, y ≠ .event (.finish r q b)) : Along M A (h ++ [y]) r s places where
  count := by
    rw [k.count, edgesFrom_append, edgesFrom_singleton, silent]
    simp
  edge before after i x u split := by
    rcases snoc_eq_append_cons_iff.1 split with ⟨-, rfl, -⟩ | ⟨after, split, -⟩
    · simp [Report.edgeFrom?] at silent
    · exact k.edge before after i x u split
  finish before after q b split := by
    rcases snoc_eq_append_cons_iff.1 split with ⟨-, rfl, -⟩ | ⟨after, split, -⟩
    · exact absurd rfl (onward q b)
    · exact k.finish before after q b split

theorem ended (k : Along M A h r s places) (q : σ) (b : Option (Backtrack ι τ))
    (nothing : .skippedState r ∉ h → ahead M A r s places h = ∅) :
    Along M A (h ++ [.event (.finish r q b)]) r s places where
  count := by
    rw [k.count, edgesFrom_append]
    simp [edgesFrom_singleton, Report.edgeFrom?]
  edge before after i x u split := by
    rcases snoc_eq_append_cons_iff.1 split with ⟨-, same, -⟩ | ⟨after, split, -⟩
    · cases same
    · exact k.edge before after i x u split
  finish before after q' b' split := by
    rcases snoc_eq_append_cons_iff.1 split with ⟨rfl, -, -⟩ | ⟨after, split, -⟩
    · exact nothing
    · exact k.finish before after q' b' split

theorem snoc (k : Along M A h r s places) {j : Nat} {i : ι} {n : Nat} {x : τ}
    (kept : .skippedState r ∉ h) (here : (M.layout A s)[j]? = some ((i, n), x))
    (least : IsLeast (ahead M A r s places h) j) :
    Along M A (h ++ [.event (.edge r i x (M.successor x))]) r s (places ++ [j]) where
  count := by
    rw [List.length_append, k.count, edgesFrom_append]
    simp [edgesFrom_singleton, Report.edgeFrom?]
  edge before after i' x' u split := by
    rcases snoc_eq_append_cons_iff.1 split with ⟨rfl, same, -⟩ | ⟨after, split, -⟩
    · obtain ⟨-, rfl, rfl, rfl⟩ := Event.edge.inj (Report.event.inj same)
      refine ⟨kept, rfl, j, n, ?_, here, ?_⟩
      · rw [← k.count]
        exact List.getElem?_concat_length
      · rwa [ahead_append (Nat.le_of_eq k.count.symm)]
    · obtain ⟨kept, target, j', n', place, there, least⟩ := k.edge before after i' x' u split
      rw [ahead_append (k.few split)]
      have inside : (edgesFrom r before).length < places.length :=
        (List.getElem?_eq_some_iff.1 place).1
      refine ⟨kept, target, j', n', ?_, there, least⟩
      rw [List.getElem?_append_left inside, place]
  finish before after q b split := by
    rcases snoc_eq_append_cons_iff.1 split with ⟨-, same, -⟩ | ⟨after, split, -⟩
    · cases same
    · rw [ahead_append (k.few split)]
      exact k.finish before after q b split

end Along

/-- The visit goes on where the places of its edges lead to, unless it was given up. -/
structure Stands (M : TransitionSystem σ ι τ) (A : List ι) (h : List (Report σ ι τ))
    (v : Visit σ ι τ RecordIndex) (places : List Nat) : Prop where
  dropped : .skippedState v.label ∈ h → v.pending M = []
  walks : .skippedState v.label ∉ h → ∃ c : Cursor (ι × Nat) τ, c.map Prod.fst = v.place ∧
    c.Walks (fun p => M.transitions v.state p.1) (M.layout A v.state) places.getLast?
      (SkippedSince h v.label)

namespace Stands

variable {v w : Visit σ ι τ RecordIndex}

theorem planned {r : RecordIndex} (new : ∀ y ∈ h, y.target? ≠ some r) (s : σ) :
    Stands M A h (.planned A r s) [] where
  dropped mem := absurd rfl (new _ mem)
  walks _ := by
    refine ⟨⟨A.zipIdx, none⟩, ?_, .begin (fun p => M.transitions s p.1) A _⟩
    simp [Cursor.map, Visit.planned]

/-- A call that leaves the walk of the record alone. -/
theorem quiet (k : Stands M A h v places) (place : w.place = v.place) (state : w.state = v.state)
    (label : w.label = v.label) (silent : y.edgeFrom? v.label = none)
    (letter : y ≠ .skippedLetter v.label) (kept : y ≠ .skippedState v.label) :
    Stands M A (h ++ [y]) w places := by
  have same : SkippedSince (h ++ [y]) v.label ↔ SkippedSince h v.label := by
    rw [skippedSince_snoc, or_iff_right letter, and_iff_left silent]
  have given : .skippedState v.label ∈ h ++ [y] ↔ .skippedState v.label ∈ h := by
    simp [kept.symm]
  constructor
  · rw [label, given, Visit.pending, place, state]
    exact k.dropped
  · rw [label, given, place, state]
    intro kept
    obtain ⟨c, under, walks⟩ := k.walks kept
    exact ⟨c, under, walks.congr same.symm⟩

theorem skipLetter (k : Stands M A h v places) :
    Stands M A (h ++ [.skippedLetter v.label]) v.skipLetter places where
  dropped mem := by
    have none : v.pending M = [] := k.dropped (by simpa [Visit.skipLetter] using mem)
    have fewer : (v.skipLetter.pending M).length ≤ (v.pending M).length :=
      Cursor.length_toList_skipRow_le _ v.place
    rw [none] at fewer
    exact List.length_eq_zero_iff.1 (Nat.le_zero.1 fewer)
  walks kept := by
    obtain ⟨c, under, walks⟩ := k.walks fun mem => kept (List.mem_append_left _ mem)
    refine ⟨c.skipRow, ?_, walks.skipRow.congr ?_⟩
    · rw [Visit.skipLetter, ← under]
      rfl
    · exact iff_of_true trivial (skippedSince_snoc.2 (.inl rfl))

/-- Breadth-first a visit that is given up waits for its finish. -/
theorem skipAll (v : Visit σ ι τ RecordIndex) :
    Stands M A (h ++ [.skippedState v.label]) v.skipAll places where
  dropped _ := rfl
  walks kept := absurd (List.mem_append_right h List.mem_cons_self) kept

/-- The visit takes the transition at the first place ahead. -/
theorem next (k : Stands M A h v places) (along : Along M A h v.label v.state places) {p : ι × τ}
    (step : v.next M = (some p, w)) : ∃ j,
      Along M A (h ++ [.event (.edge v.label p.1 p.2 (M.successor p.2))]) v.label v.state
        (places ++ [j]) ∧
      Stands M A (h ++ [.event (.edge v.label p.1 p.2 (M.successor p.2))]) w (places ++ [j]) := by
  obtain ⟨pending, label, state, -, -⟩ := Visit.next_of_some step
  have kept : .skippedState v.label ∉ h := fun mem => by
    rw [k.dropped mem] at pending
    cases pending
  obtain ⟨c, under, walks⟩ := k.walks kept
  have moved := Cursor.next_map Prod.fst (M.transitions v.state) c
  rw [under] at moved
  rw [Visit.next, moved] at step
  cases hn : c.next (M.transitions v.state ∘ Prod.fst) with
  | mk q d =>
    rw [hn] at step
    obtain ⟨given, rfl⟩ := Prod.mk.inj step
    obtain ⟨⟨e, x⟩, rfl, rfl⟩ := Option.map_eq_some_iff.1 given
    obtain ⟨j, here, least, walks⟩ := walks.next hn
    rw [← along.ahead_eq] at least
    refine ⟨j, along.snoc kept here least, fun mem => ?_, fun _ => ⟨d, rfl, ?_⟩⟩
    · simp [kept] at mem
    · rw [List.getLast?_concat]
      refine walks.congr (iff_of_false id ?_)
      rw [skippedSince_snoc]
      simp [Report.edgeFrom?]

/-- A visit that has nothing left and was not given up is behind all places. -/
theorem ended (k : Stands M A h v places) (along : Along M A h v.label v.state places)
    (step : v.next M = (none, w)) (kept : .skippedState v.label ∉ h) :
    ahead M A v.label v.state places h = ∅ := by
  obtain ⟨c, under, walks⟩ := k.walks kept
  have moved := Cursor.next_map Prod.fst (M.transitions v.state) c
  rw [under] at moved
  rw [Visit.next, moved] at step
  have nothing : (c.next (M.transitions v.state ∘ Prod.fst)).1 = none :=
    Option.map_eq_none_iff.1 (Prod.mk.inj step).1
  rw [along.ahead_eq]
  exact Set.eq_empty_of_forall_notMem (walks.ended nothing)

end Stands

/-- The record `r`, of the state `s`, was followed along its layout, and its visit among `vs`, if
it is there, goes on from where that led. -/
def Followed (M : TransitionSystem σ ι τ) (A : List ι) (h : List (Report σ ι τ))
    (vs : List (Visit σ ι τ RecordIndex)) (r : RecordIndex) (s : σ) : Prop :=
  ∃ places, Along M A h r s places ∧
    ∀ v ∈ vs, v.label = r → v.state = s ∧ Stands M A h v places

namespace Followed

variable {vs vs' rest : List (Visit σ ι τ RecordIndex)} {v a : Visit σ ι τ RecordIndex}

/-- A call that goes on with another record. -/
theorem other (k : Followed M A h vs r s) (about : y.target? ≠ some r)
    (same : ∀ v ∈ vs', v.label = r → v ∈ vs) : Followed M A (h ++ [y]) vs' r s := by
  obtain ⟨places, along, stands⟩ := k
  have silent := Report.edgeFrom?_eq_none about
  refine ⟨places, along.quiet silent ?_, ?_⟩
  · rintro q b rfl
    exact about rfl
  · rintro v hv rfl
    obtain ⟨state, stands⟩ := stands v (same v hv rfl) rfl
    refine ⟨state, stands.quiet rfl rfl rfl silent ?_ ?_⟩
    · rintro rfl
      exact about rfl
    · rintro rfl
      exact about rfl

/-- The visit at the head goes on. -/
theorem head (apart : v.label ∉ rest.map Visit.label) (label : a.label = v.label)
    (along : Along M A h v.label s places) (state : a.state = s) (stands : Stands M A h a places) :
    Followed M A h (a :: rest) v.label s := by
  refine ⟨places, along, fun b hb same => ?_⟩
  rcases List.mem_cons.1 hb with rfl | hb
  · exact ⟨state, stands⟩
  · exact absurd (List.mem_map.2 ⟨b, hb, same⟩) apart

/-- The visit at the head is gone. -/
theorem gone (apart : v.label ∉ rest.map Visit.label) (along : Along M A h v.label s places) :
    Followed M A h rest v.label s :=
  ⟨places, along, fun b hb same => absurd (List.mem_map.2 ⟨b, hb, same⟩) apart⟩

end Followed

end Histories

section Reached

variable {t u : Traversal M A o δ} {h : List (Report σ ι τ)} {y : Report σ ι τ} {r : RecordIndex}
  {s : σ}

/-- A call keeps the states of the records. -/
theorem Moves.state (m : t.Moves y u) (old : r < t.recordCount) :
    (u.record? r).map Record.state = (t.record? r).map Record.state := by
  have same (records : u.records = t.records) :
      (u.record? r).map Record.state = (t.record? r).map Record.state := by
    rw [record?, records, record?]
  cases m with
  | event advance =>
    cases advance with
    | initial idle unread records => exact same records
    | start ready head fresh unread records => exact same records
    | edge ready head begun step unread records => exact same records
    | finish ready head begun step unread records => exact same records
  | ended => rfl
  | scheduled s d =>
    have other : r ≠ t.records.size := Nat.ne_of_lt old
    rw [record?, records_schedule, record?, Array.getElem?_push, if_neg other]
  | skippedLetter head unread records => exact same records
  | skippedState head unread records => exact same records
  | refused => rfl
  | modified q change =>
    rw [record?, modifyData, Array.getElem?_modify, record?]
    split
    · cases t.records[r]? <;> rfl
    · rfl

end Reached

end Traversal

end Exploration
