import Mathlib
import Exploration.Proofs.Search.Layers

/-!
# Depths

Breadth-first the depth of a record in the forest is the least number of edges that lead to it,
counting only edges that were reported, from a record of a reported initial state. Skips do not
change this: they leave out edges, and what is left out counts for neither side. If nothing was
skipped the depth is the distance of the state in the system.
-/

namespace Exploration.Search

variable {σ ι τ : Type} {evs : List (Event ι τ)}

/-- `Trail evs n r`: `n` of the reported edges lead from a reported initial state to `r`. -/
inductive Trail (evs : List (Event ι τ)) : Nat → RecordIndex → Prop
  | root {r : RecordIndex} : .initial r ∈ evs → Trail evs 0 r
  | step {n : Nat} {k : EdgeKind} {u v : RecordIndex} {i : ι} {x : τ} : Trail evs n u →
      .edge k u i x v ∈ evs → Trail evs (n + 1) v

theorem Trail.append {n : Nat} {r : RecordIndex} (h : Trail evs n r) (more : List (Event ι τ)) :
    Trail (evs ++ more) n r := by
  induction h with
  | root hr => exact .root (List.mem_append_left more hr)
  | step _ he ih => exact ih.step (List.mem_append_left more he)

/-- What an event does to the depths. -/
inductive Deepens (evs : List (Event ι τ)) : Event ι τ → Prop
  | same {e : Event ι τ} (no_tree : ∀ u i x v, e ≠ .edge .tree u i x v)
      (depths_eq : depths (evs ++ [e]) = depths evs) : Deepens evs e
  | root (depths_eq : depths (evs ++ [.initial (depths evs).length]) = depths evs ++ [0]) :
      Deepens evs (.initial (depths evs).length)
  | tree {u : Nat} {i : ι} {x : τ} (met : u < (depths evs).length)
      (depths_eq : depths (evs ++ [.edge .tree u i x (depths evs).length]) =
        depths evs ++ [depth evs u + 1]) :
      Deepens evs (.edge .tree u i x (depths evs).length)

theorem depths_getElem? {r : Nat} (h : r < (depths evs).length) :
    (depths evs)[r]? = some (depth evs r) := by
  simp [depth, h]

/-- A record keeps its depth. -/
theorem Deepens.depth_eq {e : Event ι τ} (d : Deepens evs e) {r : Nat}
    (h : r < (depths evs).length) : depth (evs ++ [e]) r = depth evs r := by
  cases d with
  | same _ depths_eq => rw [depth, depths_eq, depth]
  | root depths_eq => rw [depth, depths_eq, List.getElem?_append_left h, depth]
  | tree _ depths_eq => rw [depth, depths_eq, List.getElem?_append_left h, depth]

namespace View

variable {M : TransitionSystem σ ι τ} {A : List ι} {w w' : View σ ι τ} {k j : Nat}

theorem Advances.deepens {o : Order} {e : Event ι τ} (adv : w.Advances M A o e w')
    (bounded : ∀ v ∈ w.pending, v.label < w.states.length)
    (length : (depths evs).length = w.states.length) : Deepens evs e := by
  cases adv with
  | known idle unread met =>
    refine .same nofun (inherited_known ?_)
    rw [← depths, length]
    exact (List.getElem?_eq_some_iff.1 met).1
  | root idle unread new =>
    rw [← length]
    exact .root (inherited_root rfl)
  | start ready head fresh => exact .same nofun (inherited_start _)
  | tree ready head begun step new =>
    have met := bounded _ (head ▸ List.mem_cons_self)
    rw [← length] at met ⊢
    exact .tree met (inherited_tree (depths_getElem? met) _ _ _)
  | edge ready head begun step met =>
    refine .same ?_ (inherited_edge (kindOf_ne_tree _ _ _ _) _ _ _ _)
    intro u i x v he
    exact kindOf_ne_tree _ _ _ _ (Event.edge.inj he).1
  | finish ready head begun step => exact .same nofun (inherited_finish _ _)

theorem Sweeps.length_depths (sweep : Sweeps M A evs w) :
    (depths evs).length = w.states.length :=
  (Search.length_depths evs).trans sweep.routed.counted

theorem Sweeps.deepens (sweep : Sweeps M A evs w) {e : Event ι τ}
    (adv : w.Advances M A .breadthFirst e w') : Deepens evs e := by
  obtain ⟨_, _, q⟩ := sweep.queued
  exact adv.deepens q.bounded sweep.length_depths

/-- A tree edge leads one deeper. -/
theorem Sweeps.depth_tree (sweep : Sweeps M A evs w) {u v : Nat} {i : ι} {x : τ}
    (he : .edge .tree u i x v ∈ evs) : depth evs v = depth evs u + 1 := by
  induction sweep with
  | begin => cases he
  | @event evs w w' e before last ih =>
    have deepens := before.deepens last
    rcases List.mem_append.1 he with old | last
    · obtain ⟨_, _, q⟩ := before.queued
      obtain ⟨hu, hv, -⟩ := q.edges .tree u v i x old
      rw [← before.length_depths] at hv
      have hu : u < (depths evs).length := by
        rw [before.length_depths]
        exact hu.trans_le q.started_le_total
      rw [deepens.depth_eq hv, deepens.depth_eq hu, ih old]
    · rw [List.mem_singleton] at last
      subst last
      cases deepens with
      | same no_tree => exact absurd rfl (no_tree u i x v)
      | tree met depths_eq =>
        have kept := (Deepens.tree met depths_eq).depth_eq met
        rw [kept, depth, depths_eq, List.getElem?_concat_length, Option.getD_some]
  | skip before same ih => exact ih he

/-- As many edges as a record is deep lead to it. -/
theorem Sweeps.trail (sweep : Sweeps M A evs w) {r : Nat} (hr : r < w.states.length) :
    Trail evs (depth evs r) r := by
  rw [← sweep.length_depths] at hr
  induction sweep generalizing r with
  | begin => cases hr
  | @event evs w w' e before last ih =>
    have deepens := before.deepens last
    by_cases old : r < (depths evs).length
    · rw [deepens.depth_eq old]
      exact (ih old).append [e]
    · -- The event has just created the record.
      cases deepens with
      | same _ depths_eq => exact absurd (depths_eq ▸ hr) old
      | root depths_eq =>
        rw [depths_eq, List.length_append, List.length_singleton] at hr
        obtain rfl : r = (depths evs).length := by omega
        rw [depth, depths_eq, List.getElem?_concat_length]
        exact .root (by simp)
      | tree met depths_eq =>
        rw [depths_eq, List.length_append, List.length_singleton] at hr
        obtain rfl : r = (depths evs).length := by omega
        rw [depth, depths_eq, List.getElem?_concat_length]
        exact ((ih met).append _).step (List.mem_append_right evs List.mem_cons_self)
  | skip before same ih => exact ih hr

namespace Routed

theorem depth_root (m : Routed evs w) {r : Nat} (h : .initial r ∈ evs) : depth evs r = 0 := by
  have mem : r ∈ evs.filterMap Event.root? := List.mem_filterMap.2 ⟨_, h, rfl⟩
  obtain ⟨p, hp⟩ := List.mem_iff_getElem?.1 mem
  obtain ⟨hr, le⟩ := m.roots p r hp
  have single := length_le_of_shortlex le
  rw [m.choices hr, List.length_singleton] at single
  omega

/-- No edge leads more than one deeper. -/
theorem depth_edge_le (m : Routed evs w) (q : Queued evs w k j) {kind : EdgeKind} {u v : Nat}
    {i : ι} {x : τ} (he : .edge kind u i x v ∈ evs) : depth evs v ≤ depth evs u + 1 := by
  obtain ⟨hu, hv, -⟩ := q.edges kind u v i x he
  obtain ⟨c, hc⟩ := List.mem_iff_getElem?.1 (edge_mem_edgesFrom.2 he)
  have longer := length_le_of_shortlex (m.edges u v c kind i x hc)
  have hu : u < w.states.length := hu.trans_le q.started_le_total
  rw [List.length_append, m.choices hu, m.choices hv, List.length_singleton] at longer
  omega

/-- Depths grow in the order of creation. -/
theorem depth_le (m : Routed evs w) {r q : Nat} (h : r ≤ q) (hq : q < w.states.length) :
    depth evs r ≤ depth evs q := by
  have longer := length_le_of_shortlex (m.route_le h hq)
  rw [m.choices (h.trans_lt hq), m.choices hq] at longer
  omega

/-- No fewer edges than a record is deep lead to it. -/
theorem depth_le_of_trail (m : Routed evs w) (q : Queued evs w k j) {n r : Nat}
    (trail : Trail evs n r) : depth evs r ≤ n := by
  induction trail with
  | root h => exact (m.depth_root h).le
  | step _ he ih => exact (m.depth_edge_le q he).trans (Nat.succ_le_succ ih)

end Routed

/-- If nothing was skipped, the depth of a record is the distance of its state. -/
theorem Runs.depth_isLeast (run : Runs M A .breadthFirst evs w) {r : RecordIndex} {t : σ}
    (hr : w.states[r]? = some t) :
    IsLeast {n | ∃ t₀ ∈ M.initial, ∃ word, M.Path A t₀ word t ∧ word.length = n}
      (depth evs r) := by
  obtain ⟨cs, word, hcs, -, own⟩ := run.genuine hr
  have here : r < (routes evs).length := (List.getElem?_eq_some_iff.1 hcs).1
  have length := length_route here
  constructor
  · obtain ⟨t₀, initial, path⟩ := own.path
    refine ⟨t₀, initial, word, path, ?_⟩
    obtain rfl : route evs r = cs := by simp [route, hcs]
    have choices := own.length
    omega
  · rintro n ⟨t₀, initial, word, path, rfl⟩
    obtain ⟨ds, other⟩ := path.route initial
    have longer := length_le_of_shortlex (run.route_le_route hr other)
    have choices := other.length
    omega

end View

variable {δ : Type} [DecidableEq σ] [Hashable σ] [Inhabited δ] {M : TransitionSystem σ ι τ}
  {A : List ι}

/-- Whatever is skipped, a breadth-first search builds a forest of shortest paths. -/
theorem breadthFirst_depth_isLeast {ms : List (Move δ)} {h : List (Report ι τ)}
    {s : Search M A .breadthFirst δ} (hp : (begin M A .breadthFirst δ).play ms = (h, s)) :
    let evs := events h
    (depths evs).length = s.recordCount ∧
    (∀ r < s.recordCount, IsLeast {n | Trail evs n r} (depth evs r)) ∧
    (∀ k u i x v, .edge k u i x v ∈ evs → depth evs v ≤ depth evs u + 1 ∧
      (k = .tree → depth evs v = depth evs u + 1) ∧
      (k = .cross → depth evs u ≤ depth evs v)) ∧
    (started evs).Pairwise (fun r q => depth evs r ≤ depth evs q) ∧
    ((∀ m ∈ ms, m ≠ .skipLetter ∧ m ≠ .skipState) → ∀ r t, s.states[r]? = some t →
      IsLeast {n | ∃ t₀ ∈ M.initial, ∃ word, M.Path A t₀ word t ∧ word.length = n}
        (depth evs r)) := by
  intro evs
  have sweep : View.Sweeps M A evs s.view := (reached_of_play hp).2.sweeps
  have m := sweep.routed
  obtain ⟨k, j, q⟩ := sweep.queued
  have total : s.view.states.length = s.recordCount := s.length_states
  refine ⟨?_, ?_, ?_, ?_, ?_⟩
  · rw [sweep.length_depths, total]
  · intro r hr
    rw [← total] at hr
    exact ⟨sweep.trail hr, fun n trail => m.depth_le_of_trail q trail⟩
  · intro kind u i x v he
    obtain ⟨-, hv, forward⟩ := q.edges kind u v i x he
    refine ⟨m.depth_edge_le q he, ?_, ?_⟩
    · rintro rfl
      exact sweep.depth_tree he
    · intro cross
      exact m.depth_le (forward cross).le hv
  · rw [q.started, List.pairwise_iff_getElem]
    intro a b ha hb lt
    rw [List.length_range] at hb
    rw [List.getElem_range, List.getElem_range]
    exact m.depth_le lt.le (hb.trans_le q.started_le_total)
  · intro plain r t hr
    exact (runs_of_play hp plain).depth_isLeast hr

/-- One edge leads from 0 to 2, and two by way of 1. -/
def detour : TransitionSystem Nat Char (Fin 3) :=
  .ofEdges [0] #[(0, 'a', 1), (0, 'b', 2), (1, 'a', 2)]

/-- If the edge from 0 to 2 is skipped, the other way is the shortest one reported. -/
theorem breadthFirst_depth_isLeast_detour :
    let pruned := (begin detour ['a', 'b'] .breadthFirst Unit).play
      [.next, .next, .next, .skipState, .next, .next, .next]
    IsLeast {n | Trail (events pruned.1) n 2} 2 ∧
      IsLeast {n | ∃ t₀ ∈ detour.initial, ∃ word,
        detour.Path ['a', 'b'] t₀ word 2 ∧ word.length = n} 1 := by
  intro pruned
  have reports : pruned.1 =
      [.event (.initial 0), .event (.start 0), .event (.edge .tree 0 'a' 0 1), .skippedState 0,
        .event (.finish 0 none), .event (.start 1), .event (.edge .tree 1 'a' 2 2)] := by
    cbv
  have far : depth (events pruned.1) 2 = 2 := by
    rw [reports]
    decide
  have count : pruned.2.recordCount = 3 := by cbv
  obtain ⟨-, trails, -⟩ := breadthFirst_depth_isLeast (h := pruned.1) (s := pruned.2) rfl
  let whole := (begin detour ['a', 'b'] .breadthFirst Unit).play [.next, .next, .next, .next]
  have met : whole.2.states[2]? = some 2 := by cbv
  have near : depth (events whole.1) 2 = 1 := by cbv
  obtain ⟨-, -, -, -, paths⟩ := breadthFirst_depth_isLeast (h := whole.1) (s := whole.2) rfl
  have least := paths (by simp) 2 2 met
  rw [near] at least
  have trail := trails 2 (by rw [count]; decide)
  rw [far] at trail
  exact ⟨trail, least⟩

end Exploration.Search
