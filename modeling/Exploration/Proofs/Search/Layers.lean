import Exploration.Proofs.Search.Inheritance
import Exploration.Proofs.Search.Queue

/-!
# The layers of a breadth-first search

A breadth-first search creates its records in the shortlex order of their routes, hence layer by
layer. `Routed` keeps what this rests on: the edge seen next belongs to a route behind those of
all records, so an edge never leads to a record whose route comes later. This holds whatever is
skipped. If nothing was skipped, every route of the system that comes before the next edge ends
in a state with a record, and the route of a record is the first of all routes to its state.
-/

namespace Exploration.Search

variable {σ ι τ : Type}

namespace View

variable {M : TransitionSystem σ ι τ} {A : List ι} {evs : List (Event ι τ)} {w w' : View σ ι τ}

/-- The event leads to the record `r`, which is one of the `n` there are or gets the route `f`. -/
inductive Meets (evs : List (Event ι τ)) (e : Event ι τ) (n : Nat) (f : List Nat) (r n' : Nat) :
    Prop
  | known (lt : r < n) (same : n' = n) (routes_eq : routes (evs ++ [e]) = routes evs) :
      Meets evs e n f r n'
  | new (last : r = n) (next : n' = n + 1)
      (routes_eq : routes (evs ++ [e]) = routes evs ++ [f]) : Meets evs e n f r n'

/-- With one more event the routes are still in order, none is behind `f`, and the `n` there were
are as before. -/
structure Extends (evs : List (Event ι τ)) (e : Event ι τ) (n : Nat) (f : List Nat) (r n' : Nat) :
    Prop where
  counted : (routes (evs ++ [e])).length = n'
  sorted : (routes (evs ++ [e])).Pairwise fun cs ds => shortlex cs < shortlex ds
  bounded : ∀ cs ∈ routes (evs ++ [e]), shortlex cs ≤ shortlex f
  stable : ∀ q < n, route (evs ++ [e]) q = route evs q
  met : r < n'
  grows : n ≤ n'

structure Routed (evs : List (Event ι τ)) (w : View σ ι τ) : Prop where
  counted : (routes evs).length = w.states.length
  sorted : (routes evs).Pairwise fun cs ds => shortlex cs < shortlex ds
  roots : ∀ p r : Nat, (evs.filterMap Event.root?)[p]? = some r →
    r < w.states.length ∧ shortlex (route evs r) ≤ shortlex [p]
  edges : ∀ (u v c : Nat) kind i x, (edgesFrom u evs)[c]? = some (.edge kind u i x v) →
    shortlex (route evs v) ≤ shortlex (route evs u ++ [c])
  opening : w.unread ≠ [] → ∀ cs ∈ routes evs, shortlex cs < shortlex [rootCount evs]
  front : w.unread = [] → ∀ a rest, w.outline = a :: rest → ∀ cs ∈ routes evs,
    shortlex cs < shortlex (route evs a.1 ++ [(edgesFrom a.1 evs).length])

namespace Routed

variable {k j : Nat}

theorem begin : Routed ([] : List (Event ι τ)) (begin M) where
  counted := rfl
  sorted := .nil
  roots := by simp
  edges := by simp [edgesFrom]
  opening _ cs hcs := by cases hcs
  front _ a rest h := by cases h

theorem mem_routes (m : Routed evs w) {r : Nat} (h : r < w.states.length) :
    route evs r ∈ routes evs :=
  route_mem (m.counted.symm ▸ h)

theorem choices (m : Routed evs w) {r : Nat} (h : r < w.states.length) :
    (route evs r).length = depth evs r + 1 :=
  length_route (m.counted.symm ▸ h)

/-- Records are created in the order of their routes. -/
theorem route_lt (m : Routed evs w) {r q : Nat} (h : r < q) (hq : q < w.states.length) :
    shortlex (route evs r) < shortlex (route evs q) := by
  have lq : q < (routes evs).length := m.counted.symm ▸ hq
  have lr : r < (routes evs).length := h.trans lq
  have lt := List.pairwise_iff_getElem.1 m.sorted r q lr lq h
  simpa [route, lr, lq] using lt

theorem route_le (m : Routed evs w) {r q : Nat} (h : r ≤ q) (hq : q < w.states.length) :
    shortlex (route evs r) ≤ shortlex (route evs q) := by
  rcases Nat.lt_or_eq_of_le h with lt | rfl
  · exact (m.route_lt lt hq).le
  · exact le_rfl

/-- The visits may change, as long as the records in the queue stay. -/
theorem carry (m : Routed evs w) (states : w'.states = w.states) (unread : w'.unread = w.unread)
    (outline : w'.outline.map Prod.fst = w.outline.map Prod.fst) : Routed evs w' where
  counted := by rw [states]; exact m.counted
  sorted := m.sorted
  roots := by rw [states]; exact m.roots
  edges := m.edges
  opening := by rw [unread]; exact m.opening
  front h a rest ha := by
    rw [unread] at h
    rw [ha] at outline
    obtain ⟨b, rest', hb, same⟩ : ∃ b rest', w.outline = b :: rest' ∧ b.1 = a.1 := by
      cases hw : w.outline with
      | nil => simp [hw] at outline
      | cons b rest' =>
        rw [hw] at outline
        exact ⟨b, rest', rfl, (List.cons.inj outline).1.symm⟩
    rw [← same]
    exact m.front h b rest' hb

/-- An event that is neither an initial state nor an edge. -/
theorem quiet (m : Routed evs w) {e : Event ι τ} (routes_eq : routes (evs ++ [e]) = routes evs)
    (root : e.root? = none) (source : e.source? = none) : Routed (evs ++ [e]) w where
  counted := by rw [routes_eq]; exact m.counted
  sorted := by rw [routes_eq]; exact m.sorted
  roots p r h := by
    have old : (evs.filterMap Event.root?)[p]? = some r := by simpa [root] using h
    rw [route, routes_eq]
    exact m.roots p r old
  edges u v c kind i x h := by
    rw [edgesFrom_snoc_of_ne (by simp [source])] at h
    rw [route, route, routes_eq]
    exact m.edges u v c kind i x h
  opening := by
    rw [routes_eq, rootCount_snoc_of_none root]
    exact m.opening
  front h a rest ha := by
    rw [routes_eq, edgesFrom_snoc_of_ne (by simp [source]), route, routes_eq]
    exact m.front h a rest ha

/-- The route of a new record comes behind the others. -/
theorem meets (m : Routed evs w) {e : Event ι τ} {f : List Nat} {r n : Nat}
    (meets : Meets evs e w.states.length f r n)
    (ahead : ∀ cs ∈ routes evs, shortlex cs < shortlex f) :
    Extends evs e w.states.length f r n := by
  cases meets with
  | known lt same routes_eq =>
    subst same
    constructor
    case counted =>
      rw [routes_eq]
      exact m.counted
    case sorted =>
      rw [routes_eq]
      exact m.sorted
    case bounded =>
      rw [routes_eq]
      intro cs hcs
      exact (ahead cs hcs).le
    case stable =>
      intro q _
      rw [route, routes_eq, route]
    case met => exact lt
    case grows => exact le_rfl
  | new last next routes_eq =>
    constructor
    case counted =>
      rw [routes_eq, List.length_append, m.counted, next]
      rfl
    case sorted =>
      rw [routes_eq]
      apply List.pairwise_append.2
      refine ⟨m.sorted, List.pairwise_singleton _ _, fun cs hcs ds hds => ?_⟩
      rw [List.mem_singleton.1 hds]
      exact ahead cs hcs
    case bounded =>
      rw [routes_eq]
      intro cs hcs
      rcases List.mem_append.1 hcs with hcs | hcs
      · exact (ahead cs hcs).le
      · rw [List.mem_singleton.1 hcs]
    case stable =>
      intro q hq
      exact route_of_routes_append routes_eq (m.counted.symm ▸ hq)
    case met => omega
    case grows => omega

/-- Before anything is started, an initial state has at most the next single choice as its route. -/
theorem initial (m : Routed evs w) (q : Queued evs w k j) {t : σ} {rest : List σ} {r k' j' : Nat}
    (unread : w.unread = t :: rest)
    (meet : Meets evs (.initial r) w.states.length [rootCount evs] r w'.states.length)
    (q' : Queued (evs ++ [.initial r]) w' k' j') : Routed (evs ++ [.initial r]) w' := by
  obtain ⟨counted, sorted, le, stable, hr, grows⟩ := m.meets meet (m.opening (by simp [unread]))
  have edgesFrom_eq (u : Nat) : edgesFrom u (evs ++ [.initial r]) = edgesFrom u evs :=
    edgesFrom_snoc_of_ne (by simp [Event.source?]) evs
  constructor
  case counted => exact counted
  case sorted => exact sorted
  case roots =>
    intro p b h
    have split : (evs.filterMap Event.root? ++ [r])[p]? = some b := by
      simpa [Event.root?] using h
    rw [View.getElem?_snoc, ← rootCount] at split
    by_cases last : p = rootCount evs
    · rw [if_pos last] at split
      obtain rfl := Option.some.inj split
      rw [last]
      exact ⟨hr, le _ (route_mem (counted.symm ▸ hr))⟩
    · rw [if_neg last] at split
      obtain ⟨hb, first⟩ := m.roots p b split
      rw [stable b hb]
      exact ⟨by omega, first⟩
  case edges =>
    intro u v c kind i x h
    rw [edgesFrom_eq] at h
    have he := edge_mem_edgesFrom.1 (List.mem_of_getElem? h)
    obtain ⟨hu, hv, -⟩ := q.edges kind u v i x he
    rw [stable u (hu.trans_le q.started_le_total), stable v hv]
    exact m.edges u v c kind i x h
  case opening =>
    intro _ cs hcs
    rw [rootCount_snoc_initial]
    exact (le cs hcs).trans_lt (shortlex_snoc_lt [] (Nat.lt_succ_self _))
  case front =>
    -- One choice is less than the two or more of the next edge.
    intro _ a rest ha cs hcs
    have ha : a.1 < w'.states.length := (q'.mem_outline (ha ▸ List.mem_cons_self)).2
    have nonempty := length_route (counted.symm ▸ ha)
    have single := length_le_of_shortlex (le cs hcs)
    apply shortlex_lt_of_length
    rw [List.length_singleton] at single
    rw [List.length_append, List.length_singleton]
    omega

/-- The edge seen next leads to a record with at most its own route. -/
theorem edge (m : Routed evs w) (q : Queued evs w k j) {a : Nat × Bool}
    {rest : List (Nat × Bool)} {kind : EdgeKind} {r : Nat} {i : ι} {x : τ}
    (unread : w.unread = []) (head : w.outline = a :: rest)
    (meet : Meets evs (.edge kind a.1 i x r) w.states.length
      (route evs a.1 ++ [(edgesFrom a.1 evs).length]) r w'.states.length)
    (read : w'.unread = []) (same : ∀ b rest, w'.outline = b :: rest → b.1 = a.1) :
    Routed (evs ++ [.edge kind a.1 i x r]) w' := by
  obtain ⟨counted, sorted, le, stable, hr, grows⟩ := m.meets meet (m.front unread a rest head)
  have ha : a.1 < w.states.length := (q.mem_outline (head ▸ List.mem_cons_self)).2
  have own : edgesFrom a.1 (evs ++ [.edge kind a.1 i x r]) =
      edgesFrom a.1 evs ++ [.edge kind a.1 i x r] :=
    edgesFrom_snoc_of_eq rfl evs
  constructor
  case counted => exact counted
  case sorted => exact sorted
  case roots =>
    intro p b h
    have none : (.edge kind a.1 i x r : Event ι τ).root? = none := rfl
    obtain ⟨hb, first⟩ := m.roots p b (by simpa [none] using h)
    rw [stable b hb]
    exact ⟨by omega, first⟩
  case edges =>
    have old (u v c : Nat) (kind' : EdgeKind) (i' : ι) (x' : τ)
        (h : (edgesFrom u evs)[c]? = some (.edge kind' u i' x' v)) :
        shortlex (route (evs ++ [.edge kind a.1 i x r]) v) ≤
          shortlex (route (evs ++ [.edge kind a.1 i x r]) u ++ [c]) := by
      have he := edge_mem_edgesFrom.1 (List.mem_of_getElem? h)
      obtain ⟨hu, hv, -⟩ := q.edges kind' u v i' x' he
      rw [stable u (hu.trans_le q.started_le_total), stable v hv]
      exact m.edges u v c kind' i' x' h
    intro u v c kind' i' x' h
    by_cases hu : u = a.1
    · subst hu
      rw [own, View.getElem?_snoc] at h
      by_cases last : c = (edgesFrom a.1 evs).length
      · rw [if_pos last] at h
        obtain ⟨-, -, -, -, rfl⟩ := Event.edge.inj (Option.some.inj h)
        rw [stable a.1 ha, last]
        exact le _ (route_mem (counted.symm ▸ hr))
      · rw [if_neg last] at h
        exact old a.1 v c kind' i' x' h
    · rw [edgesFrom_snoc_of_ne (by simpa [Event.source?] using Ne.symm hu)] at h
      exact old u v c kind' i' x' h
  case opening =>
    intro h
    exact absurd read h
  case front =>
    intro _ b rest' hb cs hcs
    rw [same b rest' hb, own, stable a.1 ha, List.length_append]
    exact (le cs hcs).trans_lt (shortlex_snoc_lt _ (Nat.lt_succ_self _))

/-- When the head is finished, the next one has seen no edge yet. -/
theorem finish (m : Routed evs w) (q : Queued evs w k j) {v : Visit σ ι τ RecordIndex}
    {rest : List (Visit σ ι τ RecordIndex)} (unread : w.unread = []) (head : w.pending = v :: rest)
    (b : Option (Backtrack ι τ)) :
    Routed (evs ++ [.finish v.label b]) ((w.withPending rest).paint v.label .black) := by
  have cons := outline_of_cons head
  have next : Routed evs ((w.withPending rest).paint v.label .black) := by
    constructor
    case counted => exact m.counted
    case sorted => exact m.sorted
    case roots => exact m.roots
    case edges => exact m.edges
    case opening => exact m.opening
    case front =>
      intro _ a rest' ha cs hcs
      have behind : a ∈ (w.withPending rest).outline := ha ▸ List.mem_cons_self
      obtain ⟨low, waits⟩ := q.waiting cons a behind
      have ha : a.1 < w.states.length := (q.mem_outline (cons ▸ List.mem_cons_of_mem _ behind)).2
      have later : shortlex (route evs v.label) < shortlex (route evs a.1) := by
        rw [q.label_of_head head]
        exact m.route_lt low ha
      have before := m.front unread _ _ cons cs hcs
      exact before.trans (shortlex_snoc_lt_of_lt later _ _)
  exact next.quiet (inherited_finish _ _) rfl rfl

theorem advances (m : Routed evs w) (q : Queued evs w k j) {e : Event ι τ}
    (adv : w.Advances M A .breadthFirst e w') : Routed (evs ++ [e]) w' := by
  obtain ⟨k', j', q'⟩ := q.advances adv
  cases adv with
  | known idle unread met =>
    have lt := (List.getElem?_eq_some_iff.1 met).1
    exact m.initial q unread (.known lt rfl (inherited_known (m.counted.symm ▸ lt))) q'
  | root idle unread new =>
    exact m.initial q unread (.new rfl (length_enter _ _ _ _) (inherited_root m.counted)) q'
  | @start v rest ready head fresh =>
    have outline := outline_of_cons head
    have turned : Routed evs ((w.withPending (v.start :: rest)).paint v.label .gray) := by
      refine m.carry rfl rfl ?_
      rw [outline]
      rfl
    exact turned.quiet (inherited_start _) rfl rfl
  | @tree v v' rest i x ready head begun step new =>
    have unread := ready.resolve_left (by decide)
    obtain ⟨-, label, -, same, -⟩ := Visit.next_of_some step
    have lt : v.label < (routes evs).length := m.counted.symm ▸ q.bounded v (head ▸ List.mem_cons_self)
    refine m.edge (a := (v.label, v.started)) q unread (outline_of_cons head)
      (.new rfl (length_enter _ _ _ _) (inherited_tree (routes_getElem? lt) i x _)) unread ?_
    intro b rest' hb
    rw [outline_enter_breadthFirst, outline_of_step head label same, outline_of_cons head] at hb
    rw [← (List.cons.inj hb).1]
  | @edge v v' rest i x r ready head begun step met =>
    have unread := ready.resolve_left (by decide)
    obtain ⟨-, label, -, same, -⟩ := Visit.next_of_some step
    have lt := (List.getElem?_eq_some_iff.1 met).1
    refine m.edge (a := (v.label, v.started)) q unread (outline_of_cons head)
      (.known lt ?_ (inherited_edge (kindOf_ne_tree _ _ _ _) _ _ _ _)) ?_ ?_
    · rw [states_note]
      rfl
    · rw [unread_note]
      exact unread
    · intro b rest' hb
      rw [outline_note, outline_of_step head label same, outline_of_cons head] at hb
      rw [← (List.cons.inj hb).1]
  | finish ready head begun step => exact m.finish q (ready.resolve_left (by decide)) head _

end Routed

theorem Sweeps.routed (sweep : Sweeps M A evs w) : Routed evs w := by
  induction sweep with
  | begin => exact .begin
  | event before last ih =>
    obtain ⟨k, j, q⟩ := before.queued
    exact ih.advances q last
  | skip before same ih => exact ih.carry rfl rfl (congrArg (List.map Prod.fst) same)

/-- The next edge of a pending record is behind the routes of all records. -/
theorem Routed.lt_of_pending {k j : Nat} (m : Routed evs w) (q : Queued evs w k j)
    {v : Visit σ ι τ RecordIndex} (hv : v ∈ w.pending) : ∀ cs ∈ routes evs,
      shortlex cs < shortlex (route evs v.label ++ [(edgesFrom v.label evs).length]) := by
  intro cs hcs
  by_cases unread : w.unread = []
  · have mem : (v.label, v.started) ∈ w.outline := List.mem_map_of_mem hv
    cases hw : w.outline with
    | nil => simp [hw] at mem
    | cons a rest =>
      have before := m.front unread a rest hw cs hcs
      rw [hw] at mem
      rcases List.mem_cons.1 mem with head | behind
      · rw [← head] at before
        exact before
      · have low := (q.waiting hw _ behind).1
        have later : shortlex (route evs a.1) < shortlex (route evs v.label) := by
          rw [(q.head hw).1]
          exact m.route_lt low (q.bounded v hv)
        exact before.trans (shortlex_snoc_lt_of_lt later _ _)
  · have single := length_le_of_shortlex (m.opening unread cs hcs).le
    have nonempty := m.choices (q.bounded v hv)
    apply shortlex_lt_of_length
    rw [List.length_singleton] at single
    rw [List.length_append, List.length_singleton]
    omega

/-- A route of the system leads to a record, or else no record has a later route. -/
theorem Runs.covered (run : Runs M A .breadthFirst evs w) {ds : List Nat} {word : List ι} {t : σ}
    (path : M.Route A ds word t) :
    (∃ r, w.states[r]? = some t ∧ shortlex (route evs r) ≤ shortlex ds) ∨
      ∀ cs ∈ routes evs, shortlex cs ≤ shortlex ds := by
  have k := run.recounts
  have m := run.sweeps.routed
  obtain ⟨_, _, q⟩ := run.sweeps.queued
  induction path with
  | @root c s hs =>
    by_cases reported : c < rootCount evs
    · obtain ⟨r, hr, met⟩ := k.root_of_lt reported hs
      exact .inl ⟨r, met, (m.roots c r hr).2⟩
    · right
      intro cs hcs
      have place := (List.getElem?_eq_some_iff.1 hs).1
      have total := k.rootCount_add_unread
      have unread : w.unread ≠ [] := by
        intro none
        rw [none, List.length_nil] at total
        omega
      have next := m.opening unread cs hcs
      have later : shortlex ([] ++ [rootCount evs]) ≤ shortlex ([] ++ [c]) :=
        shortlex_snoc_le le_rfl (Nat.le_of_not_lt reported)
      exact next.le.trans later
  | @step es word t c i x _ hx ih =>
    rcases ih with ⟨r, hr, le⟩ | later
    · obtain ⟨ps, rest, follows, outgoing⟩ := k.follows hr
      by_cases seen : c < (edgesFrom r evs).length
      · obtain ⟨p, kind, v, hp, he, hv⟩ := follows.getElem (List.getElem?_eq_getElem seen)
        have taken : ps[c]? = some (i, x) := by
          rw [outgoing, List.getElem?_append_left (follows.length_eq ▸ seen)] at hx
          exact hx
        obtain rfl := Option.some.inj (hp.symm.trans taken)
        have edge := m.edges r v c kind i x (by rw [List.getElem?_eq_getElem seen, he])
        exact .inl ⟨v, hv, edge.trans (shortlex_snoc_le le le_rfl)⟩
      · right
        intro cs hcs
        have pending : r ∈ w.pending.map Visit.label := by
          by_contra told
          have all := (k.follows_told hr told).length_eq
          have place := (List.getElem?_eq_some_iff.1 hx).1
          omega
        obtain ⟨v, hv, rfl⟩ := List.mem_map.1 pending
        have next := m.lt_of_pending q hv cs hcs
        exact next.le.trans (shortlex_snoc_le le (Nat.le_of_not_lt seen))
    · right
      intro cs hcs
      exact (later cs hcs).trans (shortlex_lt_snoc es c).le

/-- No route to the state of a record comes before the route of the record. -/
theorem Runs.route_le_route (run : Runs M A .breadthFirst evs w) {r : RecordIndex} {t : σ}
    (hr : w.states[r]? = some t) {ds : List Nat} {word : List ι} (path : M.Route A ds word t) :
    shortlex (route evs r) ≤ shortlex ds := by
  rcases run.covered path with ⟨q, hq, le⟩ | le
  · rw [← run.recounts.record_unique hq hr]
    exact le
  · have lt := (List.getElem?_eq_some_iff.1 hr).1
    exact le _ (run.sweeps.routed.mem_routes lt)

end View

end Exploration.Search
