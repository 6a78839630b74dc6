import Exploration.Proofs.Search.Starts
import Exploration.Proofs.Tour.ExploreOnce

/-!
# The search beside a tour

A tour that explores every state once and a search of the same order meet the same states and go
from event to event with the same visits pending, up to their labels. Breadth-first this stays so
when a state is dropped: its visit waits in the queue of the search behind all that the tour has.
Depth-first the search enters the first state that is dropped, but at that time every visit of the
tour is started, and no other is planned from then on. In both cases the tour starts the states
that the search starts first.
-/

namespace Exploration

variable {σ ι τ δ ν κ κ' : Type}

namespace Visit

/-- The visit without its label. -/
def bare (v : Visit σ ι τ κ) : Visit σ ι τ Unit := ⟨(), v.state, v.place, v.started, v.last⟩

variable {M : TransitionSystem σ ι τ} {v u : Visit σ ι τ κ} {a : Visit σ ι τ κ'}

theorem state_of_bare (same : a.bare = v.bare) : a.state = v.state := congrArg state same

theorem started_of_bare (same : a.bare = v.bare) : a.started = v.started := congrArg started same

theorem bare_start (same : a.bare = v.bare) : a.start.bare = v.start.bare := congrArg start same

/-- The label plays no part in the walk through the transitions. -/
theorem next_of_bare (same : a.bare = v.bare) {y : Option (ι × τ)} (next : v.next M = (y, u)) :
    ∃ c, a.next M = (y, c) ∧ c.bare = u.bare := by
  have walk (b : Visit σ ι τ κ') : b.bare.next M = ((b.next M).1, (b.next M).2.bare) := rfl
  have here : v.bare.next M = (y, u.bare) := by
    change ((v.next M).1, (v.next M).2.bare) = _
    rw [next]
  rw [← same, walk] at here
  obtain ⟨rfl, hu⟩ := Prod.mk.inj here
  exact ⟨(a.next M).2, rfl, hu⟩

theorem map_bare_place (o : Order) (v : Visit σ ι τ κ) (vs : List (Visit σ ι τ κ)) :
    (o.place v vs).map bare = o.place v.bare (vs.map bare) := by
  cases o with
  | breadthFirst => exact List.map_append
  | depthFirst => rfl

end Visit

namespace Tour

open Search (View started)

variable {M : TransitionSystem σ ι τ} {A : List ι} {o : Order}

/-- The search has come through the events `evs` to the view `w`, and has started the states that
the tour has. -/
structure Tells (M : TransitionSystem σ ι τ) (A : List ι) (o : Order) (ts : List (Turn σ ι τ δ))
    (evs : List (Search.Event ι τ)) (w : View σ ι τ) : Prop where
  run : View.Runs M A o evs w
  starts : (started evs).map (w.states[·]?) = (begun ts).map fun a => some a.1

namespace Tells

variable {ts : List (Turn σ ι τ δ)} {t : Turn σ ι τ δ} {evs : List (Search.Event ι τ)}
  {e : Search.Event ι τ} {w w' : View σ ι τ}

/-- The records started have the same states in a later view. -/
theorem starts_event (k : Tells M A o ts evs w) (adv : w.Advances M A o e w') :
    (started evs).map (w'.states[·]?) = (begun ts).map fun a => some a.1 := by
  rw [← k.starts]
  refine List.map_congr_left fun r hr => ?_
  have met := List.getElem?_eq_getElem (k.run.recounts.met_of_started hr)
  rw [met]
  exact k.run.states_append (k.run.event adv) met

theorem event (k : Tells M A o ts evs w) (adv : w.Advances M A o e w')
    (quiet : e.started? = none) : Tells M A o ts (evs ++ [e]) w' where
  run := k.run.event adv
  starts := by
    rw [Search.started_snoc, quiet, Option.toList_none, List.append_nil]
    exact k.starts_event adv

theorem call (k : Tells M A o ts evs w) (silent : t.call.begun? = none) :
    Tells M A o (ts ++ [t]) evs w where
  run := k.run
  starts := by
    rw [k.starts, begun_snoc, silent, Option.toList_none, List.append_nil]

theorem start (k : Tells M A o ts evs w) {a : Visit σ ι τ RecordIndex}
    (adv : w.Advances M A o (.start a.label) w') (head : a ∈ w.pending) {data : δ}
    (begins : t.call.begun? = some (a.state, data)) :
    Tells M A o (ts ++ [t]) (evs ++ [.start a.label]) w' where
  run := k.run.event adv
  starts := by
    have met := k.run.states_append (k.run.event adv) (k.run.recounts.met a head)
    have last : (Search.Event.start a.label : Search.Event ι τ).started?.toList = [a.label] := rfl
    rw [Search.started_snoc, last, List.map_append, k.starts_event adv, begun_snoc, begins,
      List.map_append, List.map_singleton, met]
    rfl

end Tells

/-- The tour with the visits `vs` and the search at the view `w` have come so far together. The
search has the visits `behind` besides, and the tour has still to ask about `unasked`. -/
structure Company (M : TransitionSystem σ ι τ) (A : List ι) (o : Order) (met : σ → Prop)
    (ts : List (Turn σ ι τ δ)) (vs : List (Visit σ ι τ δ)) (behind : List (Visit σ ι τ Unit))
    (unasked : List σ) (evs : List (Search.Event ι τ)) (w : View σ ι τ) : Prop
    extends Tells M A o ts evs w where
  met_iff : ∀ s, met s ↔ s ∈ w.states
  pending : w.pending.map Visit.bare = vs.map Visit.bare ++ behind
  /-- Depth-first the search leaves initial states unread that the tour has asked about, but it
  knows them. -/
  opening : w.unread = unasked ∧ (o = .breadthFirst ∨ w.pending = []) ∨
    o = .depthFirst ∧ ∀ s ∈ unasked, s ∈ w.states

namespace Company

variable {met met' : σ → Prop} {ts : List (Turn σ ι τ δ)} {t : Turn σ ι τ δ}
  {v u : Visit σ ι τ δ} {vs vs' rest : List (Visit σ ι τ δ)}
  {behind behind' : List (Visit σ ι τ Unit)} {unasked : List σ} {evs : List (Search.Event ι τ)}
  {w w' : View σ ι τ} {s : σ} {i : ι} {x : τ}

theorem start (fresh : ∀ s, ¬ met s) :
    Company M A o met ([] : List (Turn σ ι τ δ)) [] [] M.initial [] (View.begin M) where
  run := .begin
  starts := rfl
  met_iff s := iff_of_false (fresh s) List.not_mem_nil
  pending := rfl
  opening := .inl ⟨rfl, .inr rfl⟩

theorem ready (k : Company M A o met ts vs behind [] evs w) : o = .depthFirst ∨ w.unread = [] := by
  rcases k.opening with ⟨unread, -⟩ | ⟨deep, -⟩
  · exact .inr unread
  · exact .inl deep

/-- Where all initial states were asked about, it is enough that the search reads no more. -/
theorem opening_of_ready (ready : o = .depthFirst ∨ w.unread = []) :
    w.unread = [] ∧ (o = .breadthFirst ∨ w.pending = []) ∨
      o = .depthFirst ∧ ∀ s ∈ ([] : List σ), s ∈ w.states := by
  cases o with
  | breadthFirst => exact .inl ⟨ready.resolve_left (by decide), .inl rfl⟩
  | depthFirst => exact .inr ⟨rfl, by simp⟩

theorem head (k : Company M A o met ts (v :: rest) behind unasked evs w) :
    ∃ a others, w.pending = a :: others ∧ a.bare = v.bare ∧
      others.map Visit.bare = rest.map Visit.bare ++ behind :=
  List.map_eq_cons_iff.1 k.pending

theorem leave (k : Company M A o met ts (v :: rest) behind [] evs w) (begun : v.started = true)
    (next : v.next M = (none, u)) : ∃ evs' w', Company M A o met ts rest behind [] evs' w' := by
  obtain ⟨a, others, head, same, after⟩ := k.head
  obtain ⟨c, step, -⟩ := Visit.next_of_bare same next
  have adv := View.Advances.finish (A := A) k.ready head ((Visit.started_of_bare same).trans begun)
    step
  exact ⟨_, _, k.toTells.event adv rfl, k.met_iff, after, opening_of_ready k.ready⟩

theorem accept (k : Company M A o met ts (v :: rest) behind [] evs w) (fresh : v.started = false)
    (same : ∀ s, met' s ↔ met s) (begins : t.call.begun? = some (v.state, v.label)) :
    ∃ evs' w', Company M A o met' (ts ++ [t]) (v.start :: rest) behind [] evs' w' := by
  obtain ⟨a, others, head, like, after⟩ := k.head
  have adv := View.Advances.start (M := M) (A := A) k.ready head
    ((Visit.started_of_bare like).trans fresh)
  rw [← Visit.state_of_bare like] at begins
  refine ⟨_, _, k.toTells.start adv (head ▸ List.mem_cons_self) begins, ?_, ?_,
    opening_of_ready k.ready⟩
  · exact fun s => (same s).trans (k.met_iff s)
  · exact congrArg₂ List.cons (Visit.bare_start like) after

theorem pass (k : Company M A o met ts (v :: rest) behind [] evs w) (begun : v.started = true)
    (next : v.next M = (some (i, x), u)) (known : met (M.successor x))
    (same : ∀ s, met' s ↔ met s ∨ s = M.successor x) (silent : t.call.begun? = none) :
    ∃ evs' w', Company M A o met' (ts ++ [t]) (u :: rest) behind [] evs' w' := by
  obtain ⟨a, others, head, like, after⟩ := k.head
  obtain ⟨c, step, bare⟩ := Visit.next_of_bare like next
  obtain ⟨r, place⟩ := List.mem_iff_getElem?.1 ((k.met_iff _).1 known)
  have adv := View.Advances.edge (A := A) k.ready head
    ((Visit.started_of_bare like).trans begun) step place
  refine ⟨_, _, (k.toTells.event adv rfl).call silent, ?_, ?_, opening_of_ready ?_⟩
  · intro s
    rw [same, k.met_iff, View.states_note]
    refine or_iff_left_of_imp ?_
    rintro rfl
    exact (k.met_iff _).1 known
  · rw [View.pending_note]
    exact congrArg₂ List.cons bare after
  · rw [View.unread_note]
    exact k.ready

/-- A transition leads to a new state; the search plans a visit of it. -/
theorem discover (k : Company M A o met ts (v :: rest) behind [] evs w) (begun : v.started = true)
    (next : v.next M = (some (i, x), u)) (new : ¬ met (M.successor x))
    (grown : ∀ s, met' s ↔ met s ∨ s = M.successor x) (silent : t.call.begun? = none)
    (placed : vs'.map Visit.bare ++ behind' =
      o.place (.planned A () (M.successor x)) (u.bare :: (rest.map Visit.bare ++ behind))) :
    ∃ evs' w', Company M A o met' (ts ++ [t]) vs' behind' [] evs' w' := by
  obtain ⟨a, others, head, like, after⟩ := k.head
  obtain ⟨c, step, bare⟩ := Visit.next_of_bare like next
  have adv := View.Advances.tree (A := A) k.ready head ((Visit.started_of_bare like).trans begun)
    step fun old => new ((k.met_iff _).2 old)
  refine ⟨_, _, (k.toTells.event adv rfl).call silent, ?_, ?_, opening_of_ready k.ready⟩
  · intro s
    rw [grown, k.met_iff, View.enter, List.mem_append, List.mem_singleton]
    rfl
  · rw [placed, View.enter, Visit.map_bare_place, View.withPending, List.map_cons, bare, after]
    rfl

/-- An initial state that was met before: breadth-first the search reports it, depth-first it
leaves it for later. -/
theorem greet_known (k : Company M A o met ts vs behind (s :: unasked) evs w) (known : met s)
    (same : ∀ r, met' r ↔ met r ∨ r = s) (silent : t.call.begun? = none) :
    ∃ evs' w', Company M A o met' (ts ++ [t]) vs behind unasked evs' w' := by
  have met_iff : ∀ r, met' r ↔ r ∈ w.states := by
    intro r
    rw [same, k.met_iff]
    refine or_iff_left_of_imp ?_
    rintro rfl
    exact (k.met_iff _).1 known
  rcases k.opening with ⟨unread, idle⟩ | ⟨deep, old⟩
  · obtain ⟨r, place⟩ := List.mem_iff_getElem?.1 ((k.met_iff _).1 known)
    have adv := View.Advances.known (M := M) (A := A) idle unread place
    exact ⟨_, _, (k.toTells.event adv rfl).call silent, met_iff, k.pending, .inl ⟨rfl, idle⟩⟩
  · exact ⟨_, _, k.toTells.call silent, met_iff, k.pending,
      .inr ⟨deep, fun r hr => old r (List.mem_cons_of_mem s hr)⟩⟩

/-- A new initial state is one the search reads now; depth-first nothing is pending then. -/
theorem opening_of_new (k : Company M A o met ts vs behind (s :: unasked) evs w)
    (new : ¬ met s) : w.unread = s :: unasked ∧ (o = .breadthFirst ∨ w.pending = []) := by
  refine k.opening.resolve_right ?_
  rintro ⟨-, old⟩
  exact new ((k.met_iff s).2 (old s List.mem_cons_self))

theorem greet_new (k : Company M A o met ts vs behind (s :: unasked) evs w) (new : ¬ met s)
    (grown : ∀ r, met' r ↔ met r ∨ r = s) (silent : t.call.begun? = none)
    (one : o = .depthFirst → ∀ r ∈ unasked, r = s)
    (placed : vs'.map Visit.bare ++ behind' =
      vs.map Visit.bare ++ behind ++ [.planned A () s]) :
    ∃ evs' w', Company M A o met' (ts ++ [t]) vs' behind' unasked evs' w' := by
  obtain ⟨unread, idle⟩ := k.opening_of_new new
  have adv := View.Advances.root (M := M) (A := A) idle unread
    fun old => new ((k.met_iff s).2 old)
  refine ⟨_, _, (k.toTells.event adv rfl).call silent, ?_, ?_, ?_⟩
  · intro r
    rw [grown, k.met_iff, View.enter, List.mem_append, List.mem_singleton]
  · rw [placed, ← k.pending, View.enter, Visit.map_bare_place]
    cases o with
    | breadthFirst => rfl
    | depthFirst =>
      rw [idle.resolve_left (by decide)]
      rfl
  · cases o with
    | breadthFirst => exact .inl ⟨rfl, .inl rfl⟩
    | depthFirst =>
      refine .inr ⟨rfl, fun r hr => ?_⟩
      rw [one rfl r hr]
      exact List.mem_append_right _ List.mem_cons_self

/-- Depth-first nothing waits behind a visit that is started. -/
theorem begun_of_deep (k : Company M A .depthFirst met ts (v :: rest) [] unasked evs w)
    (begun : v.started = true) : ∀ b ∈ v :: rest, b.started = true := by
  obtain ⟨a, others, head, same, after⟩ := k.head
  obtain ⟨stacked, -⟩ := Search.stacked_of_reached k.run.reached
  have waiting := stacked.begun
  rw [View.outline_of_cons head] at waiting
  refine List.forall_mem_cons.2 ⟨begun, fun b hb => ?_⟩
  have mem : b.bare ∈ others.map Visit.bare := by
    rw [after, List.append_nil]
    exact List.mem_map_of_mem hb
  obtain ⟨c, hc, like⟩ := List.mem_map.1 mem
  rw [← Visit.started_of_bare like]
  exact waiting (c.label, c.started) (List.mem_map_of_mem hc)

end Company

end Tour

end Exploration
