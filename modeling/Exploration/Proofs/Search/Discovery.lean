import Exploration.Proofs.Search.EdgeHistory
import Exploration.Proofs.Search.EdgeKind

/-!
# Backtracks and discoveries

A depth-first search reads the backtrack of a finish off the visit below the finished one, which
may have been walked on, skipped or left alone since. It is still the edge that discovered the
finished record. `Threaded` says why: each visit on the stack was discovered by the transition
that the visit below it gave last, and the visit at the bottom by an initial state.
-/

namespace Exploration.Search

variable {σ ι τ : Type}

/-- The tree edge into `r` that a report gives, as the way back from `r`. -/
def Report.discovery? (r : RecordIndex) : Report ι τ → Option (Backtrack ι τ)
  | .event (.edge .tree u i x v) => if v = r then some ⟨u, i, x⟩ else none
  | _ => none

/-- The tree edges into `r`, in order. -/
def discoveries (h : List (Report ι τ)) (r : RecordIndex) : List (Backtrack ι τ) :=
  h.filterMap (Report.discovery? r)

theorem quiet_initial (r : RecordIndex) : (.event (.initial r) : Report ι τ).Quiet := trivial

theorem quiet_finish (r : RecordIndex) (b : Option (Backtrack ι τ)) :
    (.event (.finish r b) : Report ι τ).Quiet := trivial

section Discoveries

variable {h : List (Report ι τ)} {y : Report ι τ} {r : RecordIndex} {b : Backtrack ι τ}

theorem Report.discovery?_eq_some_iff :
    y.discovery? r = some b ↔ y = .event (.edge .tree b.parent b.letter b.transition r) := by
  obtain ⟨p, j, z⟩ := b
  constructor
  · intro given
    unfold discovery? at given
    split at given
    · next u i x v =>
      split at given
      · next hv =>
        cases given
        rw [hv]
      · cases given
    · cases given
  · rintro rfl
    simp [discovery?]

theorem mem_discoveries :
    b ∈ discoveries h r ↔ .event (.edge .tree b.parent b.letter b.transition r) ∈ h := by
  rw [discoveries, List.mem_filterMap]
  constructor
  · rintro ⟨y, hy, given⟩
    rwa [← Report.discovery?_eq_some_iff.1 given]
  · intro hy
    exact ⟨_, hy, Report.discovery?_eq_some_iff.2 rfl⟩

theorem discoveries_append (h h' : List (Report ι τ)) (r : RecordIndex) :
    discoveries (h ++ h') r = discoveries h r ++ discoveries h' r :=
  List.filterMap_append

theorem discoveries_eq_nil_iff : discoveries h r = [] ↔ ∀ u, ¬ Parent h u r := by
  rw [List.eq_nil_iff_forall_not_mem]
  constructor
  · rintro none u ⟨i, x, edge⟩
    exact none ⟨u, i, x⟩ (mem_discoveries.2 edge)
  · intro none b hb
    exact none b.parent ⟨b.letter, b.transition, mem_discoveries.1 hb⟩

/-- A report that gives `r` no parent leaves its discoveries as they are. -/
theorem discoveries_snoc_of_not_parent (quiet : ∀ u, ¬ Parent [y] u r) :
    discoveries (h ++ [y]) r = discoveries h r := by
  rw [discoveries_append, discoveries_eq_nil_iff.2 quiet, List.append_nil]

theorem discoveries_snoc_tree (h : List (Report ι τ)) (u r : RecordIndex) (i : ι) (x : τ) :
    discoveries (h ++ [.event (.edge .tree u i x r)]) r = discoveries h r ++ [⟨u, i, x⟩] := by
  simp [discoveries, Report.discovery?]

end Discoveries

/-- What a visit was discovered by is what its end would lead back along, all down the stack. -/
inductive Threaded (h : List (Report ι τ)) : List (Visit σ ι τ RecordIndex) → Prop
  | nil : Threaded h []
  | cons {v : Visit σ ι τ RecordIndex} {rest : List (Visit σ ι τ RecordIndex)}
      (own : discoveries h v.label = (Traversal.backtrackAlong .depthFirst rest).toList)
      (deeper : Threaded h rest) : Threaded h (v :: rest)

namespace Threaded

variable {h : List (Report ι τ)} {vs rest : List (Visit σ ι τ RecordIndex)}
  {v a : Visit σ ι τ RecordIndex} {y : Report ι τ}

theorem tail (k : Threaded h (v :: rest)) : Threaded h rest := by
  cases k with
  | cons own deeper => exact deeper

/-- However far the head has gone, it was discovered by the same edge. -/
theorem head (k : Threaded h (v :: rest)) (label : a.label = v.label) : Threaded h (a :: rest) := by
  cases k with
  | cons own deeper => exact .cons (label ▸ own) deeper

/-- A report that gives no stacked record a parent. -/
theorem snoc (k : Threaded h vs) (quiet : ∀ a ∈ vs, ∀ u, ¬ Parent [y] u a.label) :
    Threaded (h ++ [y]) vs := by
  induction k with
  | nil => exact .nil
  | @cons v rest own deeper ih =>
    refine .cons ?_ (ih fun a ha => quiet a (List.mem_cons_of_mem v ha))
    rw [discoveries_snoc_of_not_parent (quiet v List.mem_cons_self), own]

end Threaded

variable {M : TransitionSystem σ ι τ} {A : List ι} {o : Order}

/-- The stack of a depth-first search is threaded by its discoveries, whatever is skipped. -/
theorem threaded_of_reached {h : List (Report ι τ)} {w : View σ ι τ}
    (reached : View.Reached M A .depthFirst h w) : Threaded h w.pending := by
  induction reached with
  | begin => exact .nil
  | @move h w w' y before last k =>
    obtain ⟨stacked, -⟩ := stacked_of_reached before
    -- Tree edges lead to new records, so nothing on the stack gains a parent, and a new record
    -- has none.
    have old {a : Visit σ ι τ RecordIndex} (ha : a ∈ w.pending) : a.label < w.states.length := by
      refine stacked.bounded a.label ?_
      rw [View.outline, List.map_map]
      exact List.mem_map_of_mem ha
    have kept : Threaded (h ++ [y]) w.pending :=
      k.snoc fun a ha u p => Nat.not_le_of_lt (old ha) (last.parent p)
    have undiscovered : discoveries h w.states.length = [] :=
      discoveries_eq_nil_iff.2 fun u p => Nat.lt_irrefl _ (stacked.parent_lt u _ p).2
    cases last with
    | event advance =>
      cases advance with
      | known idle unread met => exact kept
      | root idle unread new =>
        have none : w.pending = [] := idle.resolve_left (by decide)
        refine .cons ?_ kept
        change discoveries _ w.states.length =
          (Traversal.backtrackAlong .depthFirst w.pending).toList
        rw [none, discoveries_snoc_of_not_parent fun u => (quiet_initial _).not_parent,
          undiscovered]
        rfl
      | start ready head fresh =>
        rw [head] at kept
        exact kept.head rfl
      | @tree v v' rest i x ready head begun step new =>
        obtain ⟨-, label, -, -, given⟩ := Visit.next_of_some step
        rw [head] at kept
        refine .cons ?_ (kept.head label)
        change discoveries _ w.states.length =
          (Traversal.backtrackAlong .depthFirst (v' :: rest)).toList
        rw [discoveries_snoc_tree, undiscovered]
        simp [Traversal.backtrackAlong, given, label]
      | edge ready head begun step met =>
        rw [head] at kept
        rw [View.note_depthFirst]
        exact kept.head (Visit.next_of_some step).2.1
      | finish ready head begun step =>
        rw [head] at kept
        exact kept.tail
    | ended unread pending => exact kept
    | skippedLetter head =>
      rw [head] at kept
      exact kept.head rfl
    | skippedState head =>
      rw [head] at kept
      exact kept.tail
    | refused pending => exact kept
    | modified => exact kept

/-- A new record is made by an initial state or by a tree edge. -/
theorem View.Moves.made {w w' : View σ ι τ} {y : Report ι τ} (m : w.Moves M A o y w')
    {r : RecordIndex} (new : w.states.length ≤ r) (there : r < w'.states.length) :
    y = .event (.initial r) ∨ ∃ u, Parent [y] u r := by
  have same (states : w'.states = w.states) : False := Nat.not_le_of_lt (states ▸ there) new
  have last (count : w'.states.length = w.states.length + 1) : r = w.states.length := by
    rw [count] at there
    exact Nat.le_antisymm (Nat.le_of_lt_succ there) new
  cases m with
  | event advance =>
    cases advance with
    | known idle unread met => exact (same rfl).elim
    | root idle unread new =>
      rw [last (length_enter _ _ _ _)]
      exact .inl rfl
    | start ready head fresh => exact (same rfl).elim
    | tree ready head begun step new =>
      rw [last (length_enter _ _ _ _)]
      exact .inr ⟨_, parent_tree_iff.2 ⟨rfl, rfl⟩⟩
    | edge ready head begun step met => exact (same (states_note _ _ _)).elim
    | finish ready head begun step => exact (same rfl).elim
  | ended unread pending => exact (same rfl).elim
  | skippedLetter head => exact (same rfl).elim
  | skippedState head => exact (same rfl).elim
  | refused pending => exact (same rfl).elim
  | modified => exact (same rfl).elim

/-- The record of an initial state is there once it is reported. -/
theorem View.Advances.initial_lt {w w' : View σ ι τ} {r : RecordIndex}
    (adv : w.Advances M A o (.initial r) w') : r < w'.states.length := by
  cases adv with
  | known idle unread met => exact (List.getElem?_eq_some_iff.1 met).1
  | root idle unread new =>
    rw [length_enter]
    exact Nat.lt_succ_self _

/-- What is finished is the head, and it leads back into what lies below. -/
theorem View.Advances.finish_cases {w w' : View σ ι τ} {r : RecordIndex}
    {b : Option (Backtrack ι τ)} (adv : w.Advances M A o (.finish r b) w') :
    ∃ v rest, w.pending = v :: rest ∧ v.label = r ∧ b = Traversal.backtrackAlong o rest ∧
      w'.states = w.states := by
  cases adv with
  | finish ready head begun step => exact ⟨_, _, head, rfl, rfl, rfl⟩

variable {δ : Type} [DecidableEq σ] [Hashable σ] [Inhabited δ]

/-- One of the calls reported an initial state as the record `r`, which there was not before. -/
def IsRoot (M : TransitionSystem σ ι τ) (A : List ι) (o : Order) (ms : List (Move δ))
    (r : RecordIndex) : Prop :=
  ∃ first rest, ms = first ++ .next :: rest ∧
    let s := ((begin M A o δ).play first).2
    s.record? r = none ∧ s.next.1 = some (.initial r)

/-- Events come of no call but the one for the next event. -/
theorem next_of_perform {s : Search M A o δ} {m : Move δ} {e : Event ι τ}
    (h : (s.perform m).1 = .event e) : m = .next ∧ s.next.1 = some e := by
  cases m with
  | next =>
    cases hn : s.next with
    | mk f u => cases f <;> simp_all [perform]
  | skipLetter =>
    rw [perform] at h
    split at h <;> cases h
  | skipState =>
    rw [perform] at h
    split at h <;> cases h
  | modifyData r change => cases h

omit [Inhabited δ] in
theorem record?_eq_none_iff {s : Search M A o δ} {r : RecordIndex} :
    s.record? r = none ↔ s.states.length ≤ r := by
  rw [record?, Array.getElem?_eq_none_iff, length_states, recordCount]

/-- A record made by an initial state has no parent, now or later. -/
theorem IsRoot.not_parent {ms : List (Move δ)} {r : RecordIndex}
    (root : IsRoot M A .depthFirst ms r) (u : RecordIndex) :
    ¬ Parent ((begin M A .depthFirst δ).play ms).1 u r := by
  obtain ⟨first, rest, rfl, unmade, reported⟩ := root
  rw [play_append]
  rcases hs : (begin M A .depthFirst δ).play first with ⟨h, s⟩
  rw [hs] at unmade reported
  obtain ⟨c, reached⟩ := reached_of_play hs
  obtain ⟨stacked, -⟩ := stacked_of_reached reached
  have new : s.states.length ≤ r := record?_eq_none_iff.1 unmade
  obtain ⟨s', hn⟩ : ∃ s', s.next = (some (.initial r), s') := ⟨_, Prod.ext reported rfl⟩
  obtain ⟨c', adv⟩ := c.advances hn
  have there : r < s'.states.length := adv.initial_lt
  intro p
  rcases parent_append_iff.1 p with p | p
  · exact Nat.not_le_of_lt (stacked.parent_lt u r p).2 new
  rw [play, perform_next hn] at p
  rcases parent_append_iff.1 (show Parent ([_] ++ _) u r from p) with p | p
  · exact (quiet_initial r).not_parent p
  · exact Nat.not_le_of_lt there (parent_of_play c' rest p)

/-- A record without a parent was made by an initial state. -/
theorem isRoot_of_not_parent {ms : List (Move δ)} {r : RecordIndex}
    (there : r < ((begin M A o δ).play ms).2.states.length)
    (none : ∀ u, ¬ Parent ((begin M A o δ).play ms).1 u r) : IsRoot M A o ms r := by
  induction ms using List.reverseRecOn with
  | nil => exact absurd there (Nat.not_lt_zero r)
  | append_singleton ms m ih =>
    rw [play_append] at there none
    rcases hs : (begin M A o δ).play ms with ⟨h, s⟩
    rw [hs] at there none ih
    by_cases old : r < s.states.length
    · obtain ⟨first, rest, rfl, made⟩ := ih old fun u p => none u (parent_append_iff.2 (.inl p))
      exact ⟨first, rest ++ [m], by simp, made⟩
    have new : s.states.length ≤ r := Nat.le_of_not_lt old
    obtain ⟨-, moved⟩ := (reached_of_play hs).1.perform m
    rcases moved.made new there with made | ⟨u, p⟩
    · obtain ⟨rfl, reported⟩ := next_of_perform made
      exact ⟨ms, [], rfl, by rw [hs]; exact ⟨record?_eq_none_iff.2 new, reported⟩⟩
    · exact absurd (parent_append_iff.2 (.inr p)) (none u)

/-- The records are those made by an initial state and those discovered by a tree edge. -/
theorem isRoot_iff {ms : List (Move δ)} {r : RecordIndex}
    (there : r < ((begin M A .depthFirst δ).play ms).2.states.length) :
    IsRoot M A .depthFirst ms r ↔ discoveries ((begin M A .depthFirst δ).play ms).1 r = [] := by
  rw [discoveries_eq_nil_iff]
  exact ⟨IsRoot.not_parent, isRoot_of_not_parent there⟩

/-- A finish leads back along the edge that discovered the finished record: its backtrack is the one
tree edge into the record, and there is none exactly if an initial state made the record. This
holds however late the finish comes and whatever is skipped. Breadth-first nothing leads back. -/
theorem finish_backtrack {ms : List (Move δ)} {h : List (Report ι τ)} {s : Search M A o δ}
    (played : (begin M A o δ).play ms = (h, s)) {before after : List (Report ι τ)}
    {r : RecordIndex} {b : Option (Backtrack ι τ)}
    (split : h = before ++ .event (.finish r b) :: after) :
    (o = .depthFirst →
      (∀ p i x, b = some ⟨p, i, x⟩ ↔ .event (.edge .tree p i x r) ∈ before) ∧
      discoveries h r = b.toList ∧ (b = none ↔ IsRoot M A o ms r)) ∧
    (o = .breadthFirst → b = none) := by
  subst split
  obtain ⟨first, m, rest, t, led, made, went⟩ := play_split played
  obtain ⟨c, reached⟩ := reached_of_play led
  obtain ⟨cm, moved⟩ := c.perform m
  rw [made] at moved
  obtain ⟨adv⟩ := moved
  obtain ⟨v, below, head, rfl, back, states⟩ := adv.finish_cases
  constructor
  · rintro rfl
    have hv : v ∈ t.view.pending := head ▸ List.mem_cons_self
    have there : v.label < (t.perform m).2.view.states.length := by
      rw [states]
      exact Coherent.lt_of_states (c.pending v hv)
    have own : discoveries before v.label = b.toList := by
      have k := threaded_of_reached reached
      rw [head] at k
      cases k with
      | cons own deeper => rw [own, back]
    have later : discoveries (.event (.finish v.label b) :: after) v.label = [] := by
      rw [discoveries_eq_nil_iff]
      intro u p
      rcases parent_append_iff.1 (show Parent ([_] ++ _) u v.label from p) with p | p
      · exact (quiet_finish v.label b).not_parent p
      · have made := parent_of_play (u := u) cm rest (by rwa [went])
        exact Nat.not_le_of_lt there made
    have whole :
        discoveries (before ++ .event (.finish v.label b) :: after) v.label = b.toList := by
      rw [discoveries_append, own, later, List.append_nil]
    refine ⟨fun p i x => ?_, whole, ?_⟩
    · rw [← mem_discoveries (b := ⟨p, i, x⟩), own, Option.mem_toList]
    · have kept := (cm.play_states rest).length_le
      rw [went] at kept
      rw [isRoot_iff, played, whole, Option.toList_eq_nil_iff]
      rw [played]
      exact Nat.lt_of_lt_of_le there kept
  · rintro rfl
    exact back

/-- After 1 was given up, 2 is discovered from 0 and leads back to it. -/
theorem finish_backtrack_fork :
    let run := (begin fork ['a', 'b', 'c'] .depthFirst Unit).play
      [.next, .next, .next, .skipState, .next, .next, .next, .next, .next, .next]
    let before : List (Report Char (Fin 4)) := [.event (.initial 0), .event (.start 0),
      .event (.edge .tree 0 'a' 0 1), .skippedState 1, .event (.edge .tree 0 'b' 1 2),
      .event (.start 2), .event (.edge .cross 2 'a' 2 1)]
    run.1 = before ++ .event (.finish 2 (some ⟨0, 'b', 1⟩)) ::
        [.event (.edge .forward 0 'c' 3 2), .event (.finish 0 none)] ∧
      discoveries run.1 2 = [⟨0, 'b', 1⟩] := by
  intro run before
  have reports : run.1 = before ++ .event (.finish 2 (some ⟨0, 'b', 1⟩)) ::
      [.event (.edge .forward 0 'c' 3 2), .event (.finish 0 none)] := by
    cbv
  obtain ⟨deep, -⟩ := finish_backtrack (h := run.1) (s := run.2) rfl reports
  exact ⟨reports, (deep rfl).2.1⟩

end Exploration.Search
