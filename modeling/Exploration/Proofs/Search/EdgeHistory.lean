import Exploration.Proofs.Search.Coloring
import Exploration.Proofs.Search.Representation

/-!
# Breadth-first edges and the history before them

Breadth-first the kind of an edge depends on what was reported of its target before. It is a tree
edge if the target was not reported at all; of the others the first to come before the start of
the target is the cross edge, and all the rest go back. The search keeps no more than a color for
this, and a skip may leave out any part of what would come.
-/

namespace Exploration.Search

variable {σ ι τ : Type}

/-- An edge led to `r` when its state was already known. -/
def MetAgain (h : List (Report ι τ)) (r : RecordIndex) : Prop :=
  ∃ k u i x, k ≠ .tree ∧ .event (.edge k u i x r) ∈ h

theorem metAgain_snoc {h : List (Report ι τ)} {y : Report ι τ} {r : RecordIndex} :
    MetAgain (h ++ [y]) r ↔
      MetAgain h r ∨ ∃ k u i x, k ≠ .tree ∧ y = .event (.edge k u i x r) := by
  simp only [MetAgain, List.mem_append, List.mem_singleton, and_or_left, exists_or,
    eq_comm (b := y)]

theorem Crossed.metAgain {h : List (Report ι τ)} {r : RecordIndex} (crossed : Crossed h r) :
    MetAgain h r := by
  obtain ⟨u, i, x, edge⟩ := crossed
  exact ⟨.cross, u, i, x, by decide, edge⟩

variable {M : TransitionSystem σ ι τ} {A : List ι} {h : List (Report ι τ)} {w w' : View σ ι τ}
  {k : EdgeKind} {u r : RecordIndex} {i : ι} {x : τ}

/-- A breadth-first edge enters a new record, or its kind is told by the color of its target. -/
theorem View.Advances.edge_target (adv : w.Advances M A .breadthFirst (.edge k u i x r) w') :
    w'.states[r]? = some (M.successor x) ∧
      (k = .tree ∧ M.successor x ∉ w.states ∧ r = w.states.length ∨
        k = w.kindOf .breadthFirst u r ∧ w.states[r]? = some (M.successor x)) := by
  cases adv with
  | tree ready head begun step new =>
    exact ⟨List.getElem?_concat_length, .inl ⟨rfl, new, rfl⟩⟩
  | edge ready head begun step met =>
    rw [states_note]
    exact ⟨met, .inr ⟨rfl, met⟩⟩

theorem View.kindOf_breadthFirst (w : View σ ι τ) (u r : RecordIndex) :
    w.kindOf .breadthFirst u r = if w.color r = .white then .cross else .back := by
  cases hc : w.color r <;> simp [kindOf, hc]

/-- The first edge that comes again to a record not yet started crosses to it. So a later edge
finds the record touched, whatever the kind of the earlier one. -/
theorem touched_iff_metAgain (reached : View.Reached M A .breadthFirst h w) (r : RecordIndex) :
    Touched .breadthFirst h r ↔ .event (.start r) ∈ h ∨ MetAgain h r := by
  constructor
  · rintro (started | ⟨-, crossed⟩)
    · exact .inl started
    · exact .inr crossed.metAgain
  rintro (started | again)
  · exact .inl started
  induction reached with
  | begin =>
    obtain ⟨k, u, i, x, -, edge⟩ := again
    cases edge
  | @move h w w' y before last ih =>
    rw [touched_snoc]
    rcases metAgain_snoc.1 again with earlier | ⟨k, u, i, x, other, rfl⟩
    · exact .inl (ih earlier)
    obtain ⟨adv⟩ := last
    rcases adv.edge_target.2 with ⟨tree, -⟩ | ⟨kind, -⟩
    · exact absurd tree other
    by_cases white : w.color r = .white
    · rw [View.kindOf_breadthFirst, if_pos white] at kind
      exact .inr (.inr ⟨rfl, u, i, x, by rw [kind]⟩)
    · have touched := (not_congr ((colored_of_reached before).white_iff r)).1 white
      exact .inl (not_not.1 touched)

variable [DecidableEq σ]

/-- What a breadth-first edge tells of the history before it. -/
structure EdgeTold (M : TransitionSystem σ ι τ) (before : List (Report ι τ)) (k : EdgeKind)
    (x : τ) (r : RecordIndex) : Prop where
  tree : k = .tree ↔ M.successor x ∉ reported M M.initial (events before)
  cross : k = .cross ↔ M.successor x ∈ reported M M.initial (events before) ∧
    .event (.start r) ∉ before ∧ ¬ MetAgain before r
  back : k = .back ↔ M.successor x ∈ reported M M.initial (events before) ∧
    (.event (.start r) ∈ before ∨ MetAgain before r)
  forward : k ≠ .forward
  /-- No earlier edge into a record is of the same kind, unless it goes back. -/
  alone : k ≠ .back → ∀ u i x, .event (.edge k u i x r) ∉ before

theorem edgeTold_of_advances (reached : View.Reached M A .breadthFirst h w)
    (tally : Tallied M (events h) w.unread w.states)
    (adv : w.Advances M A .breadthFirst (.edge k u i x r) w') : EdgeTold M h k x r := by
  rcases adv.edge_target.2 with ⟨rfl, new, rfl⟩ | ⟨kind, met⟩
  · have unreported : M.successor x ∉ reported M M.initial (events h) :=
      mt tally.mem_reported.1 new
    refine ⟨by simp [unreported], by simp [unreported], by simp [unreported], by decide, ?_⟩
    -- Records are named only once they exist, and this one is new.
    intro _ u' i' x' earlier
    have named := tally.handles _ (mem_events.2 earlier) w.states.length
    simp [Event.handles] at named
  have known : M.successor x ∈ reported M M.initial (events h) :=
    tally.mem_reported.2 (List.mem_of_getElem? met)
  have white_iff : w.color r = .white ↔ ¬ (.event (.start r) ∈ h ∨ MetAgain h r) := by
    rw [(colored_of_reached reached).white_iff, touched_iff_metAgain reached]
  rw [View.kindOf_breadthFirst] at kind
  by_cases white : w.color r = .white
  · rw [if_pos white] at kind
    have untouched := white_iff.1 white
    obtain ⟨fresh, once⟩ := not_or.1 untouched
    subst kind
    refine ⟨by simp [known], by simp [known, fresh, once], by simp [untouched], by decide, ?_⟩
    intro _ u' i' x' earlier
    exact once ⟨.cross, u', i', x', by decide, earlier⟩
  · rw [if_neg white] at kind
    have touched := not_not.1 ((not_congr white_iff).1 white)
    subst kind
    refine ⟨by simp [known], ?_, by simp [known, touched], by decide, fun other => ?_⟩
    · simp only [reduceCtorEq, false_iff, not_and, not_not]
      intro _ fresh
      exact touched.resolve_left fresh
    · exact absurd rfl other

variable {δ : Type} [Hashable σ] [Inhabited δ]

/-- The state of a record does not change. -/
theorem Coherent.play_states {o : Order} {s : Search M A o δ} (c : s.Coherent)
    (ms : List (Move δ)) : s.states <+: (s.play ms).2.states :=
  c.play_keeps (P := fun w => s.states <+: w.states)
    (fun _ _ _ moved sofar => sofar.trans moved.states_prefix) (List.prefix_refl _) ms

/-- The search at an edge of its history, with all that is known of it. -/
theorem edgeTold_of_play {ms : List (Move δ)} {before after : List (Report ι τ)}
    {s : Search M A .breadthFirst δ}
    (played : (begin M A .breadthFirst δ).play ms =
      (before ++ .event (.edge k u i x r) :: after, s)) :
    EdgeTold M before k x r ∧ s.find? (M.successor x) = some r := by
  obtain ⟨first, m, rest, t, led, made, went⟩ := play_split played
  obtain ⟨c, reached⟩ := reached_of_play led
  obtain ⟨-, tally⟩ := Coherent.play_tallied (h := []) (.begin (M := M) (δ := δ)) .begin first
  rw [led] at tally
  obtain ⟨cm, moved⟩ := c.perform m
  rw [made] at moved
  obtain ⟨adv⟩ := moved
  refine ⟨edgeTold_of_advances reached tally adv, ?_⟩
  have stay := cm.play_states rest
  obtain ⟨cs, -⟩ := reached_of_play played
  rw [went] at stay
  obtain ⟨lt, here⟩ := List.getElem?_eq_some_iff.1 adv.edge_target.1
  rw [cs.find, ← here]
  exact List.prefix_iff_getElem?.1 stay r lt

/-- The kind of a breadth-first edge is read off the reports before it, whatever was skipped: it
is a tree edge if its target was reported by none of them, a cross edge if the target is not
started and no edge came to it again, and goes back otherwise. A record is entered by at most one
tree edge and by at most one cross edge. -/
theorem breadthFirst_edge_kind {ms : List (Move δ)} {before after : List (Report ι τ)}
    {s : Search M A .breadthFirst δ}
    (played : (begin M A .breadthFirst δ).play ms =
      (before ++ .event (.edge k u i x r) :: after, s)) :
    s.find? (M.successor x) = some r ∧
    (k = .tree ↔ M.successor x ∉ reported M M.initial (events before)) ∧
    (k = .cross ↔ M.successor x ∈ reported M M.initial (events before) ∧
      .event (.start r) ∉ before ∧ ¬ MetAgain before r) ∧
    (k = .back ↔ M.successor x ∈ reported M M.initial (events before) ∧
      (.event (.start r) ∈ before ∨ MetAgain before r)) ∧
    k ≠ .forward ∧
    (k = .tree ∨ k = .cross → ∀ u' i' x',
      .event (.edge k u' i' x' r) ∉ before ∧ .event (.edge k u' i' x' r) ∉ after) := by
  obtain ⟨told, found⟩ := edgeTold_of_play played
  refine ⟨found, told.tree, told.cross, told.back, told.forward, ?_⟩
  intro once u' i' x'
  have kind : k ≠ .back := by rcases once with rfl | rfl <;> decide
  refine ⟨told.alone kind u' i' x', ?_⟩
  intro later
  obtain ⟨mid, rest, rfl⟩ := List.append_of_mem later
  -- The later edge would have this one among the reports before it.
  have again : (begin M A .breadthFirst δ).play ms =
      ((before ++ .event (.edge k u i x r) :: mid) ++ .event (.edge k u' i' x' r) :: rest, s) := by
    rw [played, List.append_assoc, List.cons_append]
  exact (edgeTold_of_play again).1.alone kind u i x
    (List.mem_append_right before List.mem_cons_self)

/-- Of three edges to a state that is not yet started the first is a tree edge and the second
crosses to it. -/
theorem breadthFirst_edge_kind_relay :
    let run := (begin Traversal.relay ['a', 'a', 'a'] .breadthFirst Unit).play
      [.next, .next, .next, .next, .next, .next]
    let before : List (Report Char (Fin 1)) := [.event (.initial 0), .event (.initial 1),
      .event (.start 0), .event (.edge .tree 0 'a' 0 2)]
    run.1 = before ++ .event (.edge .cross 0 'a' 0 2) :: [.event (.edge .back 0 'a' 0 2)] ∧
      run.2.find? 1 = some 2 ∧ ¬ MetAgain before 2 := by
  intro run before
  have reports : run.1 =
      before ++ .event (.edge .cross 0 'a' 0 2) :: [.event (.edge .back 0 'a' 0 2)] := by
    cbv
  obtain ⟨found, -, cross, -⟩ := breadthFirst_edge_kind (s := run.2) (Prod.ext reports rfl)
  exact ⟨reports, found, (cross.1 rfl).2.2⟩

end Exploration.Search
