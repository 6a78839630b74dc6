import Mathlib
import Exploration.Proofs.Search.Forest

/-!
# Edge kinds and the forest

What a depth-first search calls an edge is decided by a color and two numbers. It is what the
forest of the run says: `depthFirst_edge_kind` has every edge of every run, however the run is
pruned. The one exception is a record abandoned after its start, which stays gray for ever and so
is met by back edges only.
-/

namespace Exploration.Search

namespace View

variable {σ ι τ : Type} {w : View σ ι τ} {u r : RecordIndex}

theorem kindOf_eq_back_iff : w.kindOf .depthFirst u r = .back ↔ w.color r = .gray := by
  by_cases hg : w.color r = .gray
  · simp [kindOf_of_gray hg, hg]
  · rw [kindOf_depthFirst hg]
    split <;> simp [hg]

theorem kindOf_eq_forward_iff :
    w.kindOf .depthFirst u r = .forward ↔ w.color r ≠ .gray ∧ u ≤ r := by
  by_cases hg : w.color r = .gray
  · simp [kindOf_of_gray hg, hg]
  · rw [kindOf_depthFirst hg]
    split
    · next hr => simp [hg, Nat.not_le_of_lt hr]
    · next hr => simp [hg, Nat.le_of_not_lt hr]

theorem kindOf_eq_cross_iff :
    w.kindOf .depthFirst u r = .cross ↔ w.color r ≠ .gray ∧ r < u := by
  by_cases hg : w.color r = .gray
  · simp [kindOf_of_gray hg, hg]
  · rw [kindOf_depthFirst hg]
    split
    · next hr => simp [hg, hr]
    · next hr => simp [hr]

end View

variable {σ ι τ : Type}

section Head

variable {h : List (Report ι τ)} {stack : List (RecordIndex × Bool)} {n : Nat} {u r : RecordIndex}
  {color : RecordIndex → Color}

/-- Below a started head everything on the stack was started. -/
theorem Stacked.mem_of_head (k : Stacked h ((u, true) :: stack) n)
    (hr : r ∈ ((u, true) :: stack).map Prod.fst) : (r, true) ∈ (u, true) :: stack := by
  obtain ⟨⟨q, b⟩, ha, rfl⟩ := List.mem_map.1 hr
  have begun : b = true := by
    rcases List.mem_cons.1 ha with he | hm
    · exact (Prod.mk.inj he).2
    · exact k.begun (q, b) hm
  subst begun
  exact ha

/-- Seen from the head of the stack, gray records are the head and its ancestors. -/
theorem gray_iff_ancestor (k : Stacked h ((u, true) :: stack) n)
    (c : Shaded h ((u, true) :: stack) n color) (kept : ¬ Abandoned h r) :
    color r = .gray ↔ r = u ∨ Ancestor h r u := by
  rw [c.gray_iff r]
  constructor
  · rintro (hr | gone)
    · rcases List.mem_cons.1 hr with he | hr
      · exact .inl (Prod.mk.inj he).1
      · have hm : r ∈ stack.map Prod.fst := List.mem_map_of_mem hr
        have below : r < u := List.rel_of_pairwise_cons k.sorted hm
        have bound : u < n := k.bounded u List.mem_cons_self
        exact .inr (k.above r (List.mem_cons_of_mem u hm) u below bound)
    · exact absurd gone kept
  · rintro (rfl | anc)
    · exact .inl List.mem_cons_self
    · exact .inl (k.mem_of_head (k.ancestor_mem anc List.mem_cons_self))

/-- Seen from the head of the stack, records numbered above it are its descendants. -/
theorem ancestor_head_iff (k : Stacked h ((u, true) :: stack) n) (hr : r < n) :
    Ancestor h u r ↔ u < r :=
  ⟨k.ancestor_lt, fun above => k.above u List.mem_cons_self r above hr⟩

/-- The kind of an edge from the head of the stack to a record that was not abandoned. -/
theorem kindOf_iff_forest {w : View σ ι τ} (k : Stacked h ((u, true) :: stack) n)
    (c : Shaded h ((u, true) :: stack) n w.color) (kept : ¬ Abandoned h r) (hr : r < n) :
    (w.kindOf .depthFirst u r = .back ↔ r = u ∨ Ancestor h r u) ∧
    (w.kindOf .depthFirst u r = .forward ↔ Ancestor h u r) ∧
    (w.kindOf .depthFirst u r = .cross ↔ ¬ (r = u ∨ Ancestor h r u) ∧ ¬ Ancestor h u r) := by
  have gray := gray_iff_ancestor k c kept
  have le_of_gray : w.color r = .gray → r ≤ u := by
    intro hg
    rcases gray.1 hg with rfl | anc
    · exact Nat.le_refl _
    · exact Nat.le_of_lt (k.ancestor_lt anc)
  have ne_of_dark : w.color r ≠ .gray → r ≠ u := fun hg he => hg (gray.2 (.inl he))
  rw [View.kindOf_eq_back_iff, View.kindOf_eq_forward_iff, View.kindOf_eq_cross_iff,
    ancestor_head_iff k hr, ← gray]
  refine ⟨Iff.rfl, ?_, ?_⟩
  · constructor
    · rintro ⟨dark, le⟩
      exact Nat.lt_of_le_of_ne le (ne_of_dark dark).symm
    · intro lt
      exact ⟨fun hg => Nat.not_lt_of_le (le_of_gray hg) lt, Nat.le_of_lt lt⟩
  · constructor
    · rintro ⟨dark, lt⟩
      exact ⟨dark, Nat.not_lt_of_lt lt⟩
    · rintro ⟨dark, le⟩
      exact ⟨dark, Nat.lt_of_le_of_ne (Nat.le_of_not_lt le) (ne_of_dark dark)⟩

end Head

/-- Tree edges give parents to new records only. -/
theorem View.Moves.parent {M : TransitionSystem σ ι τ} {A : List ι} {o : Order}
    {w w' : View σ ι τ} {y : Report ι τ} (m : w.Moves M A o y w') {u v : RecordIndex}
    (p : Parent [y] u v) : w.states.length ≤ v := by
  have quiet {y : Report ι τ} (p : Parent [y] u v) (hy : y.Quiet) : w.states.length ≤ v :=
    absurd p hy.not_parent
  cases m with
  | event advance =>
    cases advance with
    | known idle unread met => exact quiet p trivial
    | root idle unread new => exact quiet p trivial
    | start ready head fresh => simp [Parent] at p
    | tree ready head begun step new => exact Nat.le_of_eq (parent_tree_iff.1 p).2.symm
    | edge ready head begun step met => exact quiet p (quiet_edge (w.kindOf_ne_tree _ _ _))
    | finish ready head begun step => exact quiet p trivial
  | ended unread pending => exact quiet p trivial
  | skippedLetter head => exact quiet p trivial
  | skippedState head => exact quiet p trivial
  | refused pending => exact quiet p trivial
  | modified => exact quiet p trivial

/-- Later tree edges do not touch the records there were. -/
theorem ancestor_append_iff {h h' : List (Report ι τ)} {stack : List (RecordIndex × Bool)}
    {n : Nat} (k : Stacked h stack n) (later : ∀ u v, Parent h' u v → n ≤ v) {a b : RecordIndex}
    (hb : b < n) : Ancestor (h ++ h') a b ↔ Ancestor h a b := by
  refine ⟨fun anc => ?_, Ancestor.append⟩
  have old {u v : RecordIndex} (hv : v < n) (p : Parent (h ++ h') u v) : Parent h u v :=
    (parent_append_iff.1 p).resolve_right fun q => Nat.not_le_of_lt hv (later u v q)
  induction anc with
  | single p => exact .single (old hb p)
  | tail _ p ih =>
    have q := old hb p
    exact (ih (Nat.lt_trans (k.parent_lt _ _ q).1 hb)).tail q

/-- An edge of a depth-first search has the head of the stack as its source. -/
theorem View.Advances.edge_cases {M : TransitionSystem σ ι τ} {A : List ι} {w w' : View σ ι τ}
    {k : EdgeKind} {u v : RecordIndex} {i : ι} {x : τ}
    (adv : w.Advances M A .depthFirst (.edge k u i x v) w') :
    (∃ stack, w.outline = (u, true) :: stack) ∧ w'.states[v]? = some (M.successor x) ∧
      ((k = .tree ∧ M.successor x ∉ w.states) ∨
        (k = w.kindOf .depthFirst u v ∧ w.states[v]? = some (M.successor x))) := by
  cases adv with
  | tree ready head begun step new =>
    refine ⟨⟨_, by rw [outline_of_cons head, begun]⟩, ?_, .inl ⟨rfl, new⟩⟩
    exact List.getElem?_concat_length
  | edge ready head begun step met =>
    refine ⟨⟨_, by rw [outline_of_cons head, begun]⟩, ?_, .inr ⟨rfl, met⟩⟩
    rw [states_note]
    exact met

variable {δ : Type} [DecidableEq σ] [Hashable σ] [Inhabited δ] {M : TransitionSystem σ ι τ}
  {A : List ι}

theorem parent_of_play {o : Order} {s : Search M A o δ} (c : s.Coherent) (ms : List (Move δ))
    {u v : RecordIndex} (p : Parent (s.play ms).1 u v) : s.states.length ≤ v := by
  induction ms generalizing s with
  | nil => simp [play, Parent] at p
  | cons m ms ih =>
    obtain ⟨cm, moves⟩ := c.perform m
    rcases parent_append_iff.1 (show Parent ([_] ++ _) u v from p) with p | p
    · exact moves.parent p
    · exact Nat.le_trans moves.states_prefix.length_le (ih cm p)

/-- Whatever is skipped, the kind of an edge says how it lies in the forest of the whole history,
save that an abandoned record counts as an ancestor for ever. -/
theorem depthFirst_edge_kind {before after : List (Move δ)} {h h' : List (Report ι τ)}
    {s s' t : Search M A .depthFirst δ} {k : EdgeKind} {u v : RecordIndex} {i : ι} {x : τ}
    (hb : (begin M A .depthFirst δ).play before = (h, s))
    (he : s.next = (some (.edge k u i x v), s')) (ha : s'.play after = (h', t)) :
    let f := h ++ .event (.edge k u i x v) :: h'
    s'.find? (M.successor x) = some v ∧
    (k = .tree ↔ s.find? (M.successor x) = none) ∧
    (s.find? (M.successor x) ≠ none → Abandoned h v → k = .back) ∧
    (s.find? (M.successor x) ≠ none → ¬ Abandoned h v →
      (k = .back ↔ v = u ∨ Ancestor f v u) ∧
      (k = .forward ↔ Ancestor f u v) ∧
      (k = .cross ↔ ¬ (v = u ∨ Ancestor f v u) ∧ ¬ Ancestor f u v)) := by
  intro f
  obtain ⟨c, reached⟩ := reached_of_play hb
  obtain ⟨stacked, shaded⟩ := stacked_of_reached reached
  obtain ⟨c', adv⟩ := c.advances he
  obtain ⟨⟨stack, hs⟩, target, kind⟩ := adv.edge_cases
  rw [hs] at stacked shaded
  have hp : s.play (.next :: after) = (.event (.edge k u i x v) :: h', t) := by
    rw [play, perform_next he, ha]
  have later : ∀ a b, Parent (.event (.edge k u i x v) :: h') a b → s.states.length ≤ b :=
    fun a b p => parent_of_play c (.next :: after) (by rw [hp]; exact p)
  refine ⟨(c'.find _ v).2 target, ?_⟩
  rcases kind with ⟨rfl, new⟩ | ⟨hk, met⟩
  · have none : s.find? (M.successor x) = none := c.find_eq_none_iff.2 new
    exact ⟨by simp [none], fun known => absurd none known, fun known => absurd none known⟩
  have known : s.find? (M.successor x) = some v := (c.find _ v).2 met
  have hu : u < s.states.length := stacked.bounded u List.mem_cons_self
  have hv : v < s.states.length := Coherent.lt_of_states met
  refine ⟨?_, ?_, ?_⟩
  · rw [hk, known]
    simp [View.kindOf_ne_tree]
  · intro _ gone
    rw [hk, View.kindOf_eq_back_iff, shaded.gray_iff]
    exact .inr gone
  · intro _ kept
    rw [hk, ancestor_append_iff stacked later hu, ancestor_append_iff stacked later hv]
    exact kindOf_iff_forest stacked shaded kept hv

/-- Two ways from 0 to 2, and two to 1. -/
def fork : TransitionSystem Nat Char (Fin 4) :=
  .ofEdges [0] #[(0, 'a', 1), (0, 'b', 2), (2, 'a', 1), (0, 'c', 2)]

/-- After 1 was abandoned, the second edge from 0 to 2 goes forward to a descendant. -/
theorem depthFirst_edge_kind_fork :
    let run := (begin fork ['a', 'b', 'c'] .depthFirst Unit).play
      [.next, .next, .next, .next, .skipState, .next, .next, .next, .next]
    run.2.next.1 = some (.edge .forward 0 'c' 3 2) ∧ Abandoned run.1 1 ∧
      Ancestor (run.1 ++ [.event (.edge .forward 0 'c' 3 2)]) 0 2 := by
  intro run
  have reports : run.1 =
      [.event (.initial 0), .event (.start 0), .event (.edge .tree 0 'a' 0 1), .event (.start 1),
        .skippedState 1, .event (.edge .tree 0 'b' 1 2), .event (.start 2),
        .event (.edge .back 2 'a' 2 1), .event (.finish 2 (some ⟨0, 'b', 1⟩))] := by
    cbv
  have edge : run.2.next.1 = some (.edge .forward 0 'c' 3 2) := by cbv
  have met : run.2.find? (fork.successor 3) = some 2 := by cbv
  have gone : Abandoned run.1 1 := by
    rw [reports, Abandoned]
    decide
  have kept : ¬ Abandoned run.1 2 := by
    rw [reports, Abandoned]
    decide
  obtain ⟨-, -, -, kinds⟩ := depthFirst_edge_kind (h := run.1) (s := run.2) rfl
    (Prod.ext edge rfl) (show run.2.next.2.play [] = _ from rfl)
  exact ⟨edge, gone, (kinds (by simp [met]) kept).2.1.1 rfl⟩

end Exploration.Search
