import Exploration.Proofs.Search.FinishOrder
import Exploration.Proofs.Search.Replay
import Exploration.Proofs.Search.Starts

/-!
# Depth-first search as recursion

The textbook writes depth-first search as a recursion that hands on the states it knows: a state
is visited transition by transition, and a successor met for the first time is numbered and
visited at once. A search keeps a stack instead and gives one event at a time. Through finitely
many states it reports what the recursion tells, event by event and with the same numbers.
-/

namespace Exploration.Search

variable {σ ι τ : Type}

/-- What a recursion has told, and the states it knows, in the order of their numbers. -/
@[ext] structure Tale (σ ι τ : Type) where
  events : List (Event ι τ)
  known : List σ

namespace Tale

def tell (t : Tale σ ι τ) (e : Event ι τ) : Tale σ ι τ := { t with events := t.events ++ [e] }

/-- Gives a state the next number. -/
def meet (t : Tale σ ι τ) (s : σ) : Tale σ ι τ := { t with known := t.known ++ [s] }

def number? [DecidableEq σ] (t : Tale σ ι τ) (s : σ) : Option RecordIndex := t.known.idxOf? s

/-- The states in the order of their visits. -/
def preorder (t : Tale σ ι τ) : List σ := (started t.events).filterMap (t.known[·]?)

end Tale

/-- The kind of an edge from `u` to the known record `v` while the records on `path` are visited. -/
def kindAlong (path : List RecordIndex) (u v : RecordIndex) : EdgeKind :=
  if v ∈ path then .back else if v < u then .cross else .forward

section Definition

variable [DecidableEq σ] (M : TransitionSystem σ ι τ) (A : List ι)

/-- Takes the transitions of `u` one after the other. -/
def takeAll (visit : Option (Backtrack ι τ) → RecordIndex → σ → Tale σ ι τ → Option (Tale σ ι τ))
    (path : List RecordIndex) (u : RecordIndex) :
    List (ι × τ) → Tale σ ι τ → Option (Tale σ ι τ)
  | [], t => some t
  | (i, x) :: ps, t =>
    match t.number? (M.successor x) with
    | some v => takeAll visit path u ps (t.tell (.edge (kindAlong path u v) u i x v))
    | none =>
      let v := t.known.length
      let met := (t.tell (.edge .tree u i x v)).meet (M.successor x)
      (visit (some ⟨u, i, x⟩) v (M.successor x) met).bind (takeAll visit path u ps)

/-- Visits the record `u` of the state `s`, at most `depth` deep, while the records on `path` are
visited. The transition `origin` discovered `u`. -/
def visit : Nat → List RecordIndex → Option (Backtrack ι τ) → RecordIndex → σ → Tale σ ι τ →
    Option (Tale σ ι τ)
  | 0, _, _, _, _, _ => none
  | depth + 1, path, origin, u, s, t =>
    (takeAll M (visit depth (u :: path)) (u :: path) u (M.outgoing A s) (t.tell (.start u))).map
      (·.tell (.finish u origin))

def visitRoots (depth : Nat) : List σ → Tale σ ι τ → Option (Tale σ ι τ)
  | [], t => some t
  | s :: rest, t =>
    match t.number? s with
    | some r => visitRoots depth rest (t.tell (.initial r))
    | none =>
      let r := t.known.length
      (visit M A depth [] none r s ((t.tell (.initial r)).meet s)).bind (visitRoots depth rest)

/-- The whole recursion; `none` if it goes deeper than `depth`. -/
def recursion (depth : Nat) : Option (Tale σ ι τ) := visitRoots M A depth M.initial ⟨[], []⟩

end Definition

variable {M : TransitionSystem σ ι τ} {A : List ι} {evs : List (Event ι τ)}
  {t t' t'' : Tale σ ι τ} {w w' w'' : View σ ι τ} {v : Visit σ ι τ RecordIndex}
  {rest : List (Visit σ ι τ RecordIndex)}

/-- Depth-first the path of the recursion is the stack. -/
theorem View.Runs.kindOf_eq (run : Runs M A .depthFirst evs w) (head : w.pending = v :: rest)
    (begun : v.started = true) (r : RecordIndex) :
    w.kindOf .depthFirst v.label r = kindAlong (v.label :: rest.map Visit.label) v.label r := by
  obtain ⟨k, c⟩ := stacked_of_reached run.reached
  rw [outline_of_cons head, begun] at k c
  have labels : (w.withPending rest).outline.map Prod.fst = rest.map Visit.label := by
    simp [outline, withPending]
  have gray : w.color r = .gray ↔ r ∈ v.label :: rest.map Visit.label := by
    rw [c.gray_iff, or_iff_left (not_abandoned_map_event evs r), ← labels]
    exact ⟨fun hr => List.mem_map_of_mem (f := Prod.fst) hr, fun hr => k.mem_of_head hr⟩
  rw [kindAlong]
  split
  · next hr => exact kindOf_of_gray (gray.2 hr) _
  · next hr => exact kindOf_depthFirst (fun hg => hr (gray.1 hg)) _

/-- The search has told what the recursion has told. -/
structure Tracks (M : TransitionSystem σ ι τ) (A : List ι) (t : Tale σ ι τ) (w : View σ ι τ) :
    Prop where
  run : View.Runs M A .depthFirst t.events w
  states : w.states = t.known

/-- From `t` and `w` both came to `t'` and `w'`, and no initial state was reported. -/
structure Onward (M : TransitionSystem σ ι τ) (A : List ι) (t t' : Tale σ ι τ)
    (w w' : View σ ι τ) : Prop where
  tracks : Tracks M A t' w'
  unread : w'.unread = w.unread
  grows : t.known.length ≤ t'.known.length

theorem Onward.trans (h : Onward M A t t' w w') (h' : Onward M A t' t'' w' w'') :
    Onward M A t t'' w w'' where
  tracks := h'.tracks
  unread := h'.unread.trans h.unread
  grows := Nat.le_trans h.grows h'.grows

namespace Tracks

theorem begin : Tracks M A ⟨[], []⟩ (View.begin M) := ⟨.begin, rfl⟩

theorem length_eq (k : Tracks M A t w) : w.states.length = t.known.length :=
  congrArg List.length k.states

/-- No more states are known than can be reached. -/
theorem length_le [DecidableEq σ] {R : Finset σ} (hR : ∀ s, s ∈ R ↔ M.Reachable A s)
    (k : Tracks M A t w) : t.known.length ≤ R.card := by
  have recounts := k.run.recounts
  rw [← k.length_eq, ← List.toFinset_card_of_nodup recounts.nodup]
  exact Finset.card_le_card (recounts.toFinset_subset hR)

theorem met_of_number? [DecidableEq σ] (k : Tracks M A t w) {s : σ} {r : RecordIndex}
    (h : t.number? s = some r) : w.states[r]? = some s := by
  obtain ⟨lt, hs, -⟩ := List.idxOf?_eq_some_iff.1 h
  rw [k.states, List.getElem?_eq_getElem lt, hs]

theorem new_of_number? [DecidableEq σ] (k : Tracks M A t w) {s : σ} (h : t.number? s = none) :
    s ∉ w.states := by
  rw [k.states]
  exact List.idxOf?_eq_none_iff.1 h

theorem start (k : Tracks M A t w) (head : w.pending = v :: rest) (fresh : v.started = false) :
    ∃ w', Onward M A t (t.tell (.start v.label)) w w' ∧ w'.pending = v.start :: rest :=
  ⟨_, ⟨⟨k.run.event (.start (.inl rfl) head fresh), k.states⟩, rfl, Nat.le_refl _⟩, rfl⟩

theorem finish (k : Tracks M A t w) (head : w.pending = v :: rest) (begun : v.started = true)
    (last : v.pending M = []) :
    ∃ w', Onward M A t
        (t.tell (.finish v.label (Traversal.backtrackAlong .depthFirst rest))) w w' ∧
      w'.pending = rest := by
  obtain ⟨u, step⟩ := Visit.next_of_pending_nil last
  exact ⟨_, ⟨⟨k.run.event (.finish (.inl rfl) head begun step), k.states⟩, rfl, Nat.le_refl _⟩,
    rfl⟩

theorem edge (k : Tracks M A t w) (head : w.pending = v :: rest) (begun : v.started = true)
    {u : Visit σ ι τ RecordIndex} {i : ι} {x : τ} (step : v.next M = (some (i, x), u))
    {r : RecordIndex} (met : w.states[r]? = some (M.successor x)) :
    ∃ w', Onward M A t (t.tell
        (.edge (kindAlong (v.label :: rest.map Visit.label) v.label r) v.label i x r)) w w' ∧
      w'.pending = u :: rest := by
  have run := k.run.event (.edge (.inl rfl) head begun step met)
  rw [View.note_depthFirst, k.run.kindOf_eq head begun] at run
  exact ⟨_, ⟨⟨run, k.states⟩, rfl, Nat.le_refl _⟩, rfl⟩

theorem tree (k : Tracks M A t w) (head : w.pending = v :: rest) (begun : v.started = true)
    {u : Visit σ ι τ RecordIndex} {i : ι} {x : τ} (step : v.next M = (some (i, x), u))
    (new : M.successor x ∉ w.states) :
    ∃ w', Onward M A t
        ((t.tell (.edge .tree v.label i x t.known.length)).meet (M.successor x)) w w' ∧
      w'.pending = .planned A t.known.length (M.successor x) :: u :: rest := by
  have run := k.run.event (.tree (.inl rfl) head begun step new)
  rw [k.length_eq] at run
  refine ⟨_, ⟨⟨run, congrArg (· ++ [_]) k.states⟩, rfl, ?_⟩, ?_⟩
  · simp [Tale.meet, Tale.tell]
  · rw [← k.length_eq]
    rfl

theorem known (k : Tracks M A t w) (pending : w.pending = []) {s : σ} {later : List σ}
    (unread : w.unread = s :: later) {r : RecordIndex} (met : w.states[r]? = some s) :
    ∃ w', Tracks M A (t.tell (.initial r)) w' ∧ w'.pending = [] ∧ w'.unread = later :=
  ⟨_, ⟨k.run.event (.known (.inr pending) unread met), k.states⟩, pending, rfl⟩

theorem root (k : Tracks M A t w) (pending : w.pending = []) {s : σ} {later : List σ}
    (unread : w.unread = s :: later) (new : s ∉ w.states) :
    ∃ w', Tracks M A ((t.tell (.initial t.known.length)).meet s) w' ∧
      w'.pending = [.planned A t.known.length s] ∧ w'.unread = later := by
  have run := k.run.event (.root (.inr pending) unread new)
  rw [k.length_eq] at run
  refine ⟨_, ⟨run, congrArg (· ++ [s]) k.states⟩, ?_, rfl⟩
  rw [← k.length_eq, ← pending]
  rfl

end Tracks

section Simulation

variable [DecidableEq σ] {R : Finset σ} {d : Nat}

/-- A visit planned at the head of the stack is taken from there by the recursion. The states not
yet known bound its depth. -/
def VisitTracked (M : TransitionSystem σ ι τ) (A : List ι) (R : Finset σ) (d : Nat) : Prop :=
  ∀ t w u s rest, Tracks M A t w → w.pending = .planned A u s :: rest →
    R.card < d + t.known.length →
    ∃ t' w', visit M A d (rest.map Visit.label) (Traversal.backtrackAlong .depthFirst rest) u s t =
      some t' ∧ Onward M A t t' w w' ∧ w'.pending = rest

theorem exists_takeAll (sub : VisitTracked M A R d) {ps : List (ι × τ)} (k : Tracks M A t w)
    (head : w.pending = v :: rest) (begun : v.started = true) (due : v.pending M = ps)
    (enough : R.card ≤ d + t.known.length) :
    ∃ t' w' v', takeAll M (visit M A d (v.label :: rest.map Visit.label))
        (v.label :: rest.map Visit.label) v.label ps t = some t' ∧ Onward M A t t' w w' ∧
      w'.pending = v' :: rest ∧ v'.label = v.label ∧ v'.started = true ∧ v'.pending M = [] := by
  induction ps generalizing t w v with
  | nil => exact ⟨t, w, v, rfl, ⟨k, rfl, Nat.le_refl _⟩, head, rfl, begun, due⟩
  | cons p ps ih =>
    obtain ⟨i, x⟩ := p
    obtain ⟨u, step, left⟩ := Visit.next_of_pending_cons due
    obtain ⟨-, label, -, same, last⟩ := Visit.next_of_some step
    have going : u.started = true := same.trans begun
    cases hn : t.number? (M.successor x) with
    | some r =>
      obtain ⟨w₁, on, head₁⟩ := k.edge head begun step (k.met_of_number? hn)
      obtain ⟨t', w', v', taken, on', pending, label', rest'⟩ :=
        ih on.tracks head₁ going left enough
      rw [label] at taken label'
      refine ⟨t', w', v', ?_, on.trans on', pending, label', rest'⟩
      simpa [takeAll, hn] using taken
    | none =>
      obtain ⟨w₁, on, head₁⟩ := k.tree head begun step (k.new_of_number? hn)
      have deeper : R.card < d + ((t.tell (.edge .tree v.label i x t.known.length)).meet
          (M.successor x)).known.length := by
        simp only [Tale.meet, Tale.tell, List.length_append, List.length_singleton]
        omega
      -- The visit of the new record leaves the stack as it was below it, and we go on from there.
      obtain ⟨t₂, w₂, visited, on₂, head₂⟩ := sub _ w₁ _ _ _ on.tracks head₁ deeper
      have enough₂ : R.card ≤ d + t₂.known.length := by
        have grown := (on.trans on₂).grows
        omega
      obtain ⟨t', w', v', taken, on', pending, label', rest'⟩ :=
        ih on₂.tracks head₂ going left enough₂
      have origin : Traversal.backtrackAlong .depthFirst (u :: rest) =
          some ⟨v.label, i, x⟩ := by
        simp [Traversal.backtrackAlong, last, label]
      rw [List.map_cons, label, origin] at visited
      rw [label] at taken label'
      refine ⟨t', w', v', ?_, (on.trans on₂).trans on', pending, label', rest'⟩
      simpa [takeAll, hn, visited] using taken

theorem visitTracked (hR : ∀ s, s ∈ R ↔ M.Reachable A s) (d : Nat) : VisitTracked M A R d := by
  induction d with
  | zero =>
    intro t w u s rest k head enough
    -- All reachable states are known, so there was none left to plan a visit for.
    have bound := k.length_le hR
    omega
  | succ d ih =>
    intro t w u s rest k head enough
    obtain ⟨w₁, on₁, head₁⟩ := k.start head rfl
    have enough₁ : R.card ≤ d + (t.tell (.start u)).known.length := by
      have same : (t.tell (.start u)).known = t.known := rfl
      rw [same]
      omega
    obtain ⟨t₂, w₂, v, taken, on₂, head₂, label, begun, last⟩ :=
      exists_takeAll ih on₁.tracks head₁ rfl rfl enough₁
    obtain ⟨w₃, on₃, head₃⟩ := on₂.tracks.finish head₂ begun last
    have own : v.label = u := label
    refine ⟨_, w₃, ?_, (on₁.trans on₂).trans on₃, head₃⟩
    rw [own, visit]
    exact Option.map_eq_some_iff.2 ⟨t₂, taken, rfl⟩

theorem exists_visitRoots (hR : ∀ s, s ∈ R ↔ M.Reachable A s) (enough : R.card ≤ d)
    {later : List σ} (k : Tracks M A t w) (pending : w.pending = []) (unread : w.unread = later) :
    ∃ t' w', visitRoots M A d later t = some t' ∧ Tracks M A t' w' ∧ w'.pending = [] ∧
      w'.unread = [] := by
  induction later generalizing t w with
  | nil => exact ⟨t, w, rfl, k, pending, unread⟩
  | cons s later ih =>
    cases hn : t.number? s with
    | some r =>
      obtain ⟨w₁, k₁, pending₁, unread₁⟩ := k.known pending unread (k.met_of_number? hn)
      obtain ⟨t', w', told, ended⟩ := ih k₁ pending₁ unread₁
      exact ⟨t', w', by simpa [visitRoots, hn] using told, ended⟩
    | none =>
      obtain ⟨w₁, k₁, head₁, unread₁⟩ := k.root pending unread (k.new_of_number? hn)
      have deep : R.card < d + ((t.tell (.initial t.known.length)).meet s).known.length := by
        simp only [Tale.meet, Tale.tell, List.length_append, List.length_singleton]
        omega
      obtain ⟨t₂, w₂, visited, on, pending₂⟩ := visitTracked hR d _ _ _ _ _ k₁ head₁ deep
      obtain ⟨t', w', told, ended⟩ := ih on.tracks pending₂ (on.unread.trans unread₁)
      have origin : Traversal.backtrackAlong (ι := ι) (τ := τ) (σ := σ) .depthFirst [] = none := rfl
      rw [List.map_nil, origin] at visited
      refine ⟨t', w', ?_, ended⟩
      simpa [visitRoots, hn, visited] using told

end Simulation

section Trace

variable [DecidableEq σ] [Hashable σ]

/-- A search leaves no choice of what has been told when nothing is left. -/
theorem Tracks.unique (k : Tracks M A t w) (unread : w.unread = []) (pending : w.pending = [])
    (k' : Tracks M A t' w') (unread' : w'.unread = []) (pending' : w'.pending = []) : t = t' := by
  obtain ⟨s, -, view, play⟩ := k.run.play_to_end unread pending Unit
  obtain ⟨s', -, view', play'⟩ := k'.run.play_to_end unread' pending' Unit
  have same : (t.events.map Report.event ++ .replicate t'.events.length .ended, s) =
      (t'.events.map Report.event ++ .replicate t.events.length .ended, s') := by
    rw [← play, ← play', Nat.add_comm]
  obtain ⟨told, last⟩ := Prod.mk.inj same
  have events : t.events = t'.events := by
    rw [← events_ended t.events, told, events_ended]
  have known : t.known = t'.known := by
    rw [← k.states, ← k'.states, ← view, ← view', last]
  exact Tale.ext events known

omit [DecidableEq σ] [Hashable σ] in
/-- The states of the started records, in order, are those that the recursion visits. -/
theorem Tracks.map_started (k : Tracks M A t w) :
    (started t.events).map (t.known[·]?) = t.preorder.map some := by
  rw [Tale.preorder, List.map_filterMap_some_eq_filter_map_isSome, List.filter_eq_self.2]
  intro a ha
  obtain ⟨r, hr, rfl⟩ := List.mem_map.1 ha
  have met := k.run.recounts.met_of_started hr
  rw [k.length_eq] at met
  simp [met]

/-- Through finitely many states, a depth-first search reports what the recursion tells and then
ends. It numbers the states as the recursion does, and the states drawn from it come in the order
in which the recursion visits them. -/
theorem depthFirst_recursion {δ : Type} [Inhabited δ] {R : Finset σ}
    (hR : ∀ s, s ∈ R ↔ M.Reachable A s) :
    ∃ (t : Tale σ ι τ) (s : Search M A .depthFirst δ),
      (∀ depth, R.card ≤ depth → recursion M A depth = some t) ∧
      (∀ n, (begin M A .depthFirst δ).play (.replicate (t.events.length + n) .next) =
        (t.events.map .event ++ .replicate n .ended, s)) ∧
      s.states = t.known ∧
      (∀ r < s.recordCount, (s.record? r).bind (·.discovery) = some r) ∧
      ∀ n, (draw nextState (begin M A .depthFirst Unit) n).1 =
        (t.preorder.map some ++ .replicate n none).take n := by
  obtain ⟨t, w, told, k, pending, unread⟩ :=
    exists_visitRoots hR (Nat.le_refl R.card) .begin rfl rfl
  obtain ⟨s, c, view, play⟩ := k.run.play_to_end unread pending δ
  have states : s.states = t.known := by
    rw [← k.states, ← view]
    rfl
  refine ⟨t, s, ?_, play, states, ?_, ?_⟩
  · intro depth enough
    obtain ⟨t', w', told', k', pending', unread'⟩ :=
      exists_visitRoots hR enough .begin rfl rfl
    obtain rfl := k.unique unread pending k' unread' pending'
    exact told'
  · intro r hr
    rw [← s.length_states] at hr
    exact c.numbered r hr
  · obtain ⟨u, cu, viewu, playu⟩ := k.run.play_to_end unread pending Unit
    have ended : u.next.1 = none := next_eq_none_iff.2 (by rw [viewu]; exact ⟨unread, pending⟩)
    have started : (started t.events).map (u.states[·]?) = t.preorder.map some := by
      rw [← k.map_started, ← k.states, ← viewu]
      rfl
    intro n
    rw [draw_nextState .begin .begin (by rw [viewu]; exact k.run) (by simpa using playu 0) ended,
      started]

/-- The recursion through `fork` takes the branch `'a'` to its end before the branch `'b'`. -/
theorem depthFirst_recursion_fork :
    recursion fork ['a', 'b', 'c'] 3 = some ⟨[.initial 0, .start 0, .edge .tree 0 'a' 0 1, .start 1,
      .finish 1 (some ⟨0, 'a', 0⟩), .edge .tree 0 'b' 1 2, .start 2, .edge .cross 2 'a' 2 1,
      .finish 2 (some ⟨0, 'b', 1⟩), .edge .forward 0 'c' 3 2, .finish 0 none], [0, 1, 2]⟩ ∧
    (draw nextState (begin fork ['a', 'b', 'c'] .depthFirst Unit) 4).1 =
      [some 0, some 1, some 2, none] := by
  obtain ⟨t, s, told, -, -, -, drawn⟩ := depthFirst_recursion (δ := Unit) reachable_fork
  have tale := told 3 (by decide)
  have run : recursion fork ['a', 'b', 'c'] 3 = some ⟨[.initial 0, .start 0,
      .edge .tree 0 'a' 0 1, .start 1, .finish 1 (some ⟨0, 'a', 0⟩), .edge .tree 0 'b' 1 2,
      .start 2, .edge .cross 2 'a' 2 1, .finish 2 (some ⟨0, 'b', 1⟩), .edge .forward 0 'c' 3 2,
      .finish 0 none], [0, 1, 2]⟩ := by rfl
  obtain rfl := Option.some.inj (tale.symm.trans run)
  exact ⟨run, drawn 4⟩

end Trace

end Exploration.Search
