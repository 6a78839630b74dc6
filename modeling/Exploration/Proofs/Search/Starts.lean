import Exploration.Proofs.AccessWords.Draw
import Exploration.Proofs.Search.Replay
import Exploration.Proofs.Search.Run

/-!
# States drawn from a search

Drawing states one by one passes over every event but the starts. So what is drawn from a search
are the states it has yet to start, in order, and nothing after its end.
-/

namespace Exploration

theorem draw_succ {α ς : Type} (next : ς → Option α × ς) (s : ς) (n : Nat) :
    draw next s (n + 1) =
      ((next s).1 :: (draw next (next s).2 n).1, (draw next (next s).2 n).2) := by
  induction n with
  | zero => rfl
  | succ n ih =>
    rw [draw, ih]
    rfl

/-- What gives nothing and stays as it is gives nothing for ever. -/
theorem draw_of_none {α ς : Type} {next : ς → Option α × ς} {s : ς} (h : next s = (none, s))
    (n : Nat) : draw next s n = (.replicate n none, s) := by
  induction n with
  | zero => rfl
  | succ n ih => rw [draw_succ, h, ih, List.replicate_succ]

/-- Of what is padded with `a` the first `n` do not need `n + 1` of them. -/
theorem take_append_replicate_succ {α : Type} (l : List α) (a : α) (n : Nat) :
    (l ++ .replicate (n + 1) a).take n = (l ++ .replicate n a).take n := by
  have enough : n ≤ (l ++ List.replicate n a).length := by simp
  rw [List.replicate_succ', ← List.append_assoc, List.take_append_of_le_length enough]

namespace Search

theorem Event.exists_of_kind_start {ι τ : Type} {e : Event ι τ} (h : e.kind = .start) :
    ∃ r, e = .start r := by
  cases e with
  | start r => exact ⟨r, rfl⟩
  | initial r => cases h
  | edge k r i x q => cases h
  | finish r b => cases h

theorem started_cons_of_ne {ι τ : Type} {e : Event ι τ} (h : e.kind ≠ .start)
    (evs : List (Event ι τ)) : started (e :: evs) = started evs := by
  cases e with
  | start r => exact absurd rfl h
  | initial r => rfl
  | edge k r i x q => rfl
  | finish r b => rfl

variable {σ ι τ δ : Type} [DecidableEq σ] [Hashable σ] [Inhabited δ]
  {M : TransitionSystem σ ι τ} {A : List ι} {o : Order} {evs before : List (Event ι τ)}
  {s u : Search M A o δ}

omit [DecidableEq σ] [Hashable σ] in
/-- A record that was started has a state. -/
theorem Recounts.met_of_started {w : View σ ι τ} (k : Recounts M A evs w) {r : RecordIndex}
    (hr : r ∈ started evs) : r < w.states.length := by
  obtain ⟨e, he, hs⟩ := List.mem_filterMap.1 hr
  by_contra unmet
  have told : e ∈ chapter r evs := by
    cases e <;> simp_all [chapter, Event.started?, Event.explored?]
  simp [k.untold r (Nat.le_of_not_lt unmet)] at told

/-- What comes of the first of some calls for the next event. -/
theorem next_of_play_cons {e : Event ι τ}
    (play : s.play (.replicate (e :: evs).length .next) = ((e :: evs).map .event, u)) :
    ∃ s', s.next = (some e, s') ∧ s'.play (.replicate evs.length .next) = (evs.map .event, u) := by
  cases hn : s.next with
  | mk e' s' =>
    cases e' with
    | none => simp [Search.play, List.replicate_succ, perform, hn] at play
    | some e' =>
      rw [List.length_cons, List.replicate_succ, Search.play, perform_next hn] at play
      obtain ⟨told, last⟩ := Prod.mk.inj play
      obtain ⟨first, rest⟩ := List.cons.inj told
      obtain rfl := Report.event.inj first
      exact ⟨s', rfl, Prod.ext rest last⟩

/-- The states drawn from a search that goes on through the events `evs`, if these start enough of
them or the search ends with them. -/
theorem draw_nextState_of_enough (c : s.Coherent) (run : View.Runs M A o before s.view)
    (run' : View.Runs M A o (before ++ evs) u.view)
    (play : s.play (.replicate evs.length .next) = (evs.map .event, u)) {n : Nat}
    (enough : u.next.1 = none ∨ n ≤ (started evs).length) : (draw nextState s n).1 =
      ((started evs).map (u.states[·]?) ++ .replicate n none).take n := by
  induction evs generalizing s before n with
  | nil =>
    obtain rfl : s = u := congrArg Prod.snd play
    rcases enough with ended | few
    · rw [draw_of_none (nextState_of_ended (next_eq_none_iff.1 ended))]
      simp [started]
    · obtain rfl : n = 0 := Nat.le_zero.1 few
      rfl
  | cons e evs ih =>
    obtain ⟨s', hn, play'⟩ := next_of_play_cons play
    obtain ⟨c', adv⟩ := c.advances hn
    have later {n : Nat} := ih (n := n) c' (run.event adv) (by simpa using run') play'
    cases n with
    | zero => rfl
    | succ n =>
      rw [draw_succ]
      by_cases start : e.kind = .start
      · obtain ⟨r, rfl⟩ := Event.exists_of_kind_start start
        obtain ⟨a, rest, head, -, rfl⟩ := adv.start_cases
        have met : s.states[a.label]? = some a.state :=
          run.recounts.met a (head ▸ List.mem_cons_self)
        have drawn : (s'.record? a.label).map (·.state) = u.states[a.label]? := by
          rw [← getElem?_states]
          exact (run.states_append (run.event adv) met).trans (run.states_append run' met).symm
        have one : started (.start a.label :: evs) = a.label :: started evs := rfl
        rw [one] at enough
        rw [nextState_of_start hn, drawn, later (enough.imp_right Nat.le_of_succ_le_succ), one,
          List.map_cons, List.cons_append, List.take_succ_cons, take_append_replicate_succ]
      · have same := started_cons_of_ne start evs
        rw [same] at enough
        rw [nextState_of_ne hn start, same, ← draw_succ]
        exact later enough

/-- The states drawn from a search that goes on through the events `evs` and then ends. -/
theorem draw_nextState (c : s.Coherent) (run : View.Runs M A o before s.view)
    (run' : View.Runs M A o (before ++ evs) u.view)
    (play : s.play (.replicate evs.length .next) = (evs.map .event, u)) (ended : u.next.1 = none)
    (n : Nat) : (draw nextState s n).1 =
      ((started evs).map (u.states[·]?) ++ .replicate n none).take n :=
  draw_nextState_of_enough c run run' play (.inl ended)

/-- As many states are drawn from a search as its run has started. -/
theorem draw_nextState_of_run {w : View σ ι τ} (run : View.Runs M A o evs w) :
    (draw nextState (begin M A o δ) (started evs).length).1 =
      (started evs).map (w.states[·]?) := by
  obtain ⟨u, play, -, rfl⟩ := run.play δ
  rw [draw_nextState_of_enough .begin .begin run play (.inr (Nat.le_refl _))]
  exact List.take_left' (List.length_map _)

end Search

end Exploration
