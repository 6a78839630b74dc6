import Mathlib.Data.List.ReduceOption
import Exploration.Proofs.AccessWords.Shadow
import Exploration.Proofs.Search.Layers

/-!
# Drawing access words

What comes of calling `next` again and again. Each call gives the state of the record that is
started next, with the word along the route of the record, so the words are shortest ones and
never get shorter. As a call goes on to a start whenever there is one left, every record is
started sooner or later, and with it every reachable state, however many there are.
-/

namespace Exploration

/-- What `n` calls give, and what is left after them. -/
def draw {α ς : Type} (next : ς → Option α × ς) (s : ς) : Nat → List (Option α) × ς
  | 0 => ([], s)
  | n + 1 =>
    let before := draw next s n
    let last := next before.2
    (before.1 ++ [last.1], last.2)

namespace AccessWords

variable {σ ι τ : Type} [DecidableEq σ] [Hashable σ] {M : TransitionSystem σ ι τ} {A : List ι}

/-- The results of the first `n` calls. -/
def results (M : TransitionSystem σ ι τ) (A : List ι) (n : Nat) : List (Option (Access σ ι)) :=
  (draw next (begin M A) n).1

/-- The search for states that the first `n` calls come along with. -/
def company (M : TransitionSystem σ ι τ) (A : List ι) (n : Nat) : States M A .breadthFirst :=
  (draw Search.nextState (Search.begin M A .breadthFirst Unit) n).2

/-- The events `evs` are those that `n` calls go through. -/
structure Drawn (M : TransitionSystem σ ι τ) (A : List ι) (n : Nat)
    (evs : List (Search.Event ι τ)) : Prop where
  shadows : Shadows evs (draw next (begin M A) n).2 (company M A n)
  states : (results M A n).map (Option.map Access.state) =
    (draw Search.nextState (Search.begin M A .breadthFirst Unit) n).1
  length : (Search.started evs).length = (results M A n).reduceOption.length
  access : ∀ (r : Nat) a, (results M A n).reduceOption[r]? = some a →
    ∃ cs, (Search.routes evs)[r]? = some cs ∧ M.Route A cs a.word a.state
  busy : n ≤ (Search.started evs).length ∨
    (company M A n).view.unread = [] ∧ (company M A n).view.pending = []

namespace Drawn

variable {n : Nat} {evs more : List (Search.Event ι τ)} {w : AccessWords M A}

theorem begin : Drawn M A 0 [] where
  shadows := .begin
  states := rfl
  length := rfl
  access r a h := by cases h
  busy := .inl (Nat.le_refl 0)

theorem run (d : Drawn M A n evs) :
    Search.View.Runs M A .breadthFirst evs (company M A n).view :=
  d.shadows.run

/-- What a call gives belongs to the record started next. -/
theorem access_snoc (d : Drawn M A n evs) {x : Option (Access σ ι)} {t : Option σ}
    {s : States M A .breadthFirst} (k : Shadows (evs ++ more) w s)
    (gives : Gives evs more s x t) :
    (Search.started (evs ++ more)).length = (results M A n ++ [x]).reduceOption.length ∧
      ∀ (r : Nat) a, (results M A n ++ [x]).reduceOption[r]? = some a →
        ∃ cs, (Search.routes (evs ++ more))[r]? = some cs ∧ M.Route A cs a.word a.state := by
  have old (r : Nat) (a : Access σ ι) (h : (results M A n).reduceOption[r]? = some a) :
      ∃ cs, (Search.routes (evs ++ more))[r]? = some cs ∧ M.Route A cs a.word a.state := by
    obtain ⟨cs, hcs, route⟩ := d.access r a h
    exact ⟨cs, Search.routes_append hcs more, route⟩
  rw [List.reduceOption_append, List.reduceOption_singleton,
    Search.started_append]
  cases gives with
  | ended started unread pending =>
    rw [started, List.append_nil, Option.toList_none, List.append_nil]
    exact ⟨d.length, old⟩
  | @access q b started state word =>
    rw [started, Option.toList_some, List.length_append, List.length_append, d.length]
    refine ⟨rfl, fun r a h => ?_⟩
    rw [Search.View.getElem?_snoc] at h
    by_cases last : r = (results M A n).reduceOption.length
    · rw [if_pos last] at h
      obtain rfl := Option.some.inj h
      obtain ⟨_, _, queued⟩ := k.run.sweeps.queued
      obtain rfl : q = r := by
        rw [last, ← d.length]
        exact queued.last_started started
      obtain ⟨cs, word', hcs, hword, route⟩ := k.run.genuine state
      obtain rfl : word' = b.word := Option.some.inj (hword.symm.trans word)
      exact ⟨cs, hcs, route⟩
    · rw [if_neg last] at h
      exact old r a h

/-- One call more. -/
theorem next (d : Drawn M A n evs) : ∃ more, Drawn M A (n + 1) (evs ++ more) := by
  obtain ⟨more, k, gives⟩ := d.shadows.next
  obtain ⟨length, access⟩ := d.access_snoc k gives
  refine ⟨more, k, ?_, length, access, ?_⟩
  · have same := congrArg₂ (· ++ [·]) d.states gives.map_state
    rw [results, draw, List.map_append]
    exact same
  · rcases d.busy with going | ended
    · rcases gives.busy with one | ended
      · left
        rw [Search.started_append, List.length_append]
        exact Nat.add_le_add going one.ge
      · exact .inr ended
    · right
      have stays : company M A (n + 1) = company M A n := by
        change (company M A n).nextState.2 = _
        rw [Search.nextState_of_ended ended]
      rw [stays]
      exact ended

theorem add (d : Drawn M A n evs) (m : Nat) : ∃ more, Drawn M A (n + m) (evs ++ more) := by
  induction m with
  | zero => exact ⟨[], by simpa using d⟩
  | succ m ih =>
    obtain ⟨more, before⟩ := ih
    obtain ⟨last, after⟩ := before.next
    exact ⟨more ++ last, by simpa [Nat.add_assoc] using after⟩

theorem of_calls (M : TransitionSystem σ ι τ) (A : List ι) (n : Nat) : ∃ evs, Drawn M A n evs := by
  obtain ⟨evs, d⟩ := (begin (M := M) (A := A)).add n
  exact ⟨evs, by simpa using d⟩

/-- The result for a record is of the state of the record. -/
theorem states_of_access (d : Drawn M A n evs) {r : Nat} {a : Access σ ι}
    (h : (results M A n).reduceOption[r]? = some a) :
    (company M A n).states[r]? = some a.state := by
  obtain ⟨cs, hcs, route⟩ := d.access r a h
  exact d.run.states_of_route hcs route

/-- A record with a smaller number than there were calls is told, unless there is none. -/
theorem access_of_lt (d : Drawn M A n evs) {r : Nat} {t : σ}
    (h : (company M A n).states[r]? = some t) (lt : r < n) :
    ∃ a, (results M A n).reduceOption[r]? = some a ∧ a.state = t := by
  obtain ⟨k, j, q⟩ := d.run.sweeps.queued
  have count : (Search.started evs).length = j := by
    rw [q.started, List.length_range]
  have started : r < j := by
    rcases d.busy with going | ⟨-, pending⟩
    · omega
    · have total := q.total
      have none : (company M A n).view.outline = [] := by
        rw [Search.View.outline, pending, List.map_nil]
      rw [none, List.length_nil] at total
      have here : r < (company M A n).view.states.length := (List.getElem?_eq_some_iff.1 h).1
      have low := q.finished_le
      omega
  have told : r < (results M A n).reduceOption.length := by
    rw [← d.length, count]
    exact started
  have ha := List.getElem?_eq_getElem told
  refine ⟨_, ha, ?_⟩
  exact Option.some.inj ((d.states_of_access ha).symm.trans h)

/-- A record with a much smaller number than there were calls has seen all its edges. -/
theorem notMem_pending (d : Drawn M A n evs) {r : Nat} (lt : r + 1 < n) :
    r ∉ (company M A n).view.pending.map Visit.label := by
  intro mem
  obtain ⟨v, hv, rfl⟩ := List.mem_map.1 mem
  rcases d.busy with going | ⟨-, pending⟩
  · obtain ⟨k, j, q⟩ := d.run.sweeps.queued
    rw [q.started, List.length_range] at going
    have low := (q.mem_outline (List.mem_map_of_mem hv)).1
    have bound := q.started_le
    change k ≤ v.label at low
    omega
  · rw [pending] at hv
    cases hv

/-- The state of a record is among the results sooner or later. -/
theorem exists_access (d : Drawn M A n evs) {r : Nat} {t : σ}
    (h : (company M A n).states[r]? = some t) :
    ∃ m a, some a ∈ results M A m ∧ a.state = t := by
  obtain ⟨more, d'⟩ := d.add (r + 1)
  have kept := d.run.states_append d'.run h
  obtain ⟨a, ha, state⟩ := d'.access_of_lt kept (by omega)
  exact ⟨_, a, List.reduceOption_mem_iff.1 (List.mem_of_getElem? ha), state⟩

end Drawn

theorem exists_access_of_reachable {t : σ} (h : M.Reachable A t) :
    ∃ n a, some a ∈ results M A n ∧ a.state = t := by
  obtain ⟨s, initial, word, path⟩ := h
  induction path with
  | nil =>
    -- The first call starts nothing before all initial states are met.
    obtain ⟨evs, d⟩ := Drawn.of_calls M A 1
    have unread : (company M A 1).view.unread = [] := by
      by_contra unread
      obtain ⟨k, j, q⟩ := d.run.sweeps.queued
      rcases d.busy with going | ended
      · rw [q.started, List.length_range, q.opening unread] at going
        omega
      · exact unread ended.1
    obtain ⟨r, hr⟩ := List.mem_iff_getElem?.1 (d.run.recounts.met_of_initial unread initial)
    exact d.exists_access hr
  | @snoc word u i x _ hi hx ih =>
    obtain ⟨n, a, ha, rfl⟩ := ih
    obtain ⟨evs, d⟩ := Drawn.of_calls M A n
    obtain ⟨r, hr⟩ := List.mem_iff_getElem?.1 (List.reduceOption_mem_iff.2 ha)
    obtain ⟨more, d'⟩ := d.add (r + 2)
    have met := d.run.states_append d'.run (d.states_of_access hr)
    have told := d'.run.recounts.follows_told met (d'.notMem_pending (show r + 1 < n + (r + 2) by omega))
    obtain ⟨q, hq⟩ := List.mem_iff_getElem?.1
      (told.met (TransitionSystem.mem_outgoing.2 ⟨hi, hx⟩))
    exact d'.exists_access hq

/-- The word of a result labels the first of all routes to its state. -/
theorem exists_route_of_access {n : Nat} {a : Access σ ι} (h : some a ∈ results M A n) :
    ∃ cs, M.Route A cs a.word a.state ∧
      ∀ ds w, M.Route A ds w a.state → shortlex cs ≤ shortlex ds := by
  obtain ⟨evs, d⟩ := Drawn.of_calls M A n
  obtain ⟨r, hr⟩ := List.mem_iff_getElem?.1 (List.reduceOption_mem_iff.2 h)
  obtain ⟨cs, hcs, route⟩ := d.access r a hr
  refine ⟨cs, route, fun ds w other => ?_⟩
  obtain rfl : Search.route evs r = cs := by simp [Search.route, hcs]
  exact d.run.route_le_route (d.states_of_access hr) other

theorem length_word_le {n : Nat} {a : Access σ ι} (h : some a ∈ results M A n) {s : σ}
    (hs : s ∈ M.initial) {w : List ι} (path : M.Path A s w a.state) :
    a.word.length ≤ w.length := by
  obtain ⟨cs, route, first⟩ := exists_route_of_access h
  obtain ⟨ds, other⟩ := path.route hs
  have longer := length_le_of_shortlex (first ds w other)
  rw [route.length, other.length] at longer
  omega

theorem nodup_results (n : Nat) : ((results M A n).reduceOption.map Access.state).Nodup := by
  obtain ⟨evs, d⟩ := Drawn.of_calls M A n
  apply List.pairwise_iff_getElem.2
  intro r q hr hq lt same
  rw [List.length_map] at hr hq
  have first := d.states_of_access (List.getElem?_eq_getElem hr)
  have second := d.states_of_access (List.getElem?_eq_getElem hq)
  rw [List.getElem_map, List.getElem_map] at same
  rw [← same] at second
  exact absurd (d.run.recounts.record_unique first second) (Nat.ne_of_lt lt)

theorem pairwise_results (n : Nat) :
    (results M A n).reduceOption.Pairwise fun a b => a.word.length ≤ b.word.length := by
  obtain ⟨evs, d⟩ := Drawn.of_calls M A n
  apply List.pairwise_iff_getElem.2
  intro r q hr hq lt
  obtain ⟨cs, hcs, first⟩ := d.access r _ (List.getElem?_eq_getElem hr)
  obtain ⟨ds, hds, second⟩ := d.access q _ (List.getElem?_eq_getElem hq)
  obtain ⟨hr', rfl⟩ := List.getElem?_eq_some_iff.1 hcs
  obtain ⟨hq', rfl⟩ := List.getElem?_eq_some_iff.1 hds
  have before := List.pairwise_iff_getElem.1 d.run.sweeps.routed.sorted r q hr' hq' lt
  have longer := length_le_of_shortlex before.le
  rw [first.length, second.length] at longer
  omega

/-- Access words are shortest words, given for each reachable state once, in the order of a
breadth-first search. -/
theorem draw_shortest (M : TransitionSystem σ ι τ) (A : List ι) :
    (∀ n a, some a ∈ results M A n → (∃ s ∈ M.initial, M.Path A s a.word a.state) ∧
      ∀ s ∈ M.initial, ∀ w, M.Path A s w a.state → a.word.length ≤ w.length) ∧
    (∀ n, ((results M A n).reduceOption.map Access.state).Nodup) ∧
    (∀ n, (results M A n).reduceOption.Pairwise fun a b => a.word.length ≤ b.word.length) ∧
    (∀ t, M.Reachable A t ↔ ∃ n a, some a ∈ results M A n ∧ a.state = t) ∧
    ∀ n, (results M A n).map (Option.map Access.state) =
      (draw Search.nextState (Search.begin M A .breadthFirst Unit) n).1 := by
  refine ⟨?_, nodup_results, pairwise_results, ?_, ?_⟩
  · intro n a ha
    obtain ⟨cs, route, -⟩ := exists_route_of_access ha
    exact ⟨route.path, fun s hs w path => length_word_le ha hs path⟩
  · intro t
    constructor
    · exact exists_access_of_reachable
    · rintro ⟨n, a, ha, rfl⟩
      obtain ⟨cs, route, -⟩ := exists_route_of_access ha
      obtain ⟨s, hs, path⟩ := route.path
      exact ⟨s, hs, a.word, path⟩
  · intro n
    obtain ⟨evs, d⟩ := Drawn.of_calls M A n
    exact d.states

end AccessWords

end Exploration
