import Exploration.Proofs.Search.StartOrder

/-!
# Pulling states and access words

A call for the next state, or for the next access word, takes events from below until one of them
makes it return, and there may be infinitely many events. But an event on which the call goes on
is no start, so it lowers the backlog, however many states were scheduled on the way.
-/

namespace Exploration

/-- What comes of attending to an event. -/
inductive Turn (α ς : Type) where
  | onward (state : ς)
  | back (result : Option α) (state : ς)

/-- Takes at most `n` events from `source` and attends to them until one makes it return or there
are no more; `none` if it would go on. -/
def pull {α ε ς : Type} (source : ς → Option ε × ς) (attend : ε → ς → Turn α ς) :
    Nat → ς → Option (Option α × ς)
  | 0, _ => none
  | n + 1, s =>
    match source s with
    | (none, u) => some (none, u)
    | (some e, u) =>
      match attend e u with
      | .onward v => pull source attend n v
      | .back x v => some (x, v)

section Pull

variable {α ε ς : Type} {source : ς → Option ε × ς} {attend : ε → ς → Turn α ς}
  {next : ς → Option α × ς} {weight : ς → Nat} {valid : ς → Prop} {s : ς}

/-- What one event has to do with a call of `next`: the call returns at it, or it goes on from a
state that weighs less. -/
inductive Serves (source : ς → Option ε × ς) (attend : ε → ς → Turn α ς)
    (next : ς → Option α × ς) (weight : ς → Nat) (valid : ς → Prop) (s : ς) : Prop
  | ended {u : ς} (taken : source s = (none, u)) (same : next s = (none, u))
  | onward {e : ε} {u v : ς} (taken : source s = (some e, u)) (goes : attend e u = .onward v)
      (keeps : valid v) (less : weight v < weight s) (same : next s = next v)
  | back {e : ε} {u v : ς} {x : Option α} (taken : source s = (some e, u))
      (returns : attend e u = .back x v) (same : next s = (x, v))

/-- The call returns at some event and not before it. -/
theorem Serves.pull (serves : ∀ s, valid s → Serves source attend next weight valid s)
    (hs : valid s) :
    ∃ k ≤ weight s, pull source attend k s = none ∧
      pull source attend (k + 1) s = some (next s) := by
  induction h : weight s using Nat.strongRecOn generalizing s with
  | ind n ih =>
    cases serves s hs with
    | ended taken same =>
      refine ⟨0, Nat.zero_le n, rfl, ?_⟩
      simp only [Exploration.pull, taken, same]
    | back taken returns same =>
      refine ⟨0, Nat.zero_le n, rfl, ?_⟩
      simp only [Exploration.pull, taken, returns, same]
    | @onward e u v taken goes keeps less same =>
      obtain ⟨k, bound, going, returned⟩ := ih (weight v) (by omega) keeps rfl
      refine ⟨k + 1, by omega, ?_, ?_⟩
      · simp only [Exploration.pull, taken, goes, going]
      · rw [Exploration.pull, taken]
        simp only [goes, returned, same]

end Pull

variable {σ ι τ δ : Type} [DecidableEq σ] [Hashable σ] {M : TransitionSystem σ ι τ} {A : List ι}
  {o : Order}

namespace Search

variable {s u : Search M A o δ}

/-- Returns at a start, if the record is there. -/
def attend : Event ι τ → Search M A o δ → Turn σ (Search M A o δ)
  | .initial _, u => .onward u
  | .start r, u =>
    match u.record? r with
    | some rec => .back (some rec.state) u
    | none => .onward u
  | .edge _ _ _ _ _, u => .onward u
  | .finish _ _, u => .onward u

theorem attend_of_ne {e : Event ι τ} (he : e.kind ≠ .start) (u : Search M A o δ) :
    attend e u = .onward u := by
  cases e with
  | start r => exact absurd rfl he
  | initial r => rfl
  | edge k v i x r => rfl
  | finish r b => rfl

variable [Inhabited δ]

/-- What was started has a record. -/
theorem Coherent.record_of_start (c : s.Coherent) {r : RecordIndex}
    (h : s.next = (some (.start r), u)) : ∃ rec, u.record? r = some rec := by
  obtain ⟨-, adv⟩ := c.advances h
  obtain ⟨v, rest, head, -, rfl⟩ := adv.start_cases
  have mem : v ∈ s.view.pending := by rw [head]; exact List.mem_cons_self
  have met : v.label < s.states.length := lt_of_states (c.pending v mem)
  have moved : s.view.Moves M A o _ u.view := .event adv
  have kept : v.label < u.states.length := Nat.lt_of_lt_of_le met moved.states_prefix.length_le
  rw [u.length_states] at kept
  exact ⟨_, Array.getElem?_eq_getElem kept⟩

/-- A search for the next start goes on from event to event and takes each from the backlog. -/
theorem Coherent.serves (c : s.Coherent) :
    Serves next attend nextState (fun s => s.traversal.backlog) Coherent s := by
  cases hn : s.next with
  | mk e u =>
    cases e with
    | none => exact .ended hn (nextState_of_none hn)
    | some e =>
      by_cases start : e.kind = .start
      · obtain ⟨r, rfl⟩ := Event.exists_of_kind_start start
        obtain ⟨rec, found⟩ := c.record_of_start hn
        have returns : attend (.start r) u = .back (some rec.state) u := by
          simp only [attend, found]
        refine .back hn returns ?_
        rw [nextState_of_start hn, found, Option.map_some]
      · have less : u.traversal.backlog < s.traversal.backlog := by
          have taken := backlog_next hn start
          omega
        exact .onward hn (attend_of_ne start u) (c.advances hn).1 less (nextState_of_ne hn start)

end Search

namespace AccessWords

/-- The next event of the traversal below. -/
def source (w : AccessWords M A) : Option (Event σ ι τ) × AccessWords M A :=
  (w.traversal.next.1, ⟨w.traversal.next.2, w.seen⟩)

/-- Returns at a start, with nothing if the record is not there; at an edge to a state that was not
seen before it needs the record of the source. -/
def attend : Event σ ι τ → AccessWords M A → Turn (Access σ ι) (AccessWords M A)
  | .initial s, w => .onward (w.enroll s [])
  | .start r s, w =>
    match w.traversal.record? r with
    | some rec => .back (some ⟨s, rec.data⟩) w
    | none => .back none w
  | .edge r i _ s, w =>
    if s ∈ w.seen then .onward w
    else
      match w.traversal.record? r with
      | some rec => .onward ⟨w.traversal.schedule s (rec.data ++ [i]), w.seen.insert s⟩
      | none => .back none ⟨w.traversal, w.seen.insert s⟩
  | .finish _ _ _, w => .onward w

variable {w : AccessWords M A} {r : RecordIndex} {rec : Record σ (List ι)}

theorem wordOf_of_record (found : w.traversal.record? r = some rec) : w.wordOf r = rec.data := by
  have kept : w.traversal.records[r]? = some rec := found
  rw [wordOf, kept]
  rfl

theorem attend_start (found : w.traversal.record? r = some rec) (s : σ) :
    attend (.start r s) w = .back (some ⟨s, w.wordOf r⟩) w := by
  simp only [attend, found, wordOf_of_record found]

theorem attend_edge (found : w.traversal.record? r = some rec) (i : ι) (x : τ) (s : σ) :
    attend (.edge r i x s) w = .onward (w.hear (.edge r i x s)) := by
  rw [attend, hear, enroll, wordOf_of_record found]
  by_cases seen : s ∈ w.seen
  · rw [if_pos seen, if_pos seen]
  · rw [if_neg seen, if_neg seen]
    simp only [found]

namespace Shadows

variable [Inhabited δ] {evs : List (Search.Event ι τ)} {s : Search M A .breadthFirst δ}
  {t : Traversal M A .breadthFirst (List ι)}

/-- The records of the visits that were pending are there after an event. -/
theorem record_of_pending (k : Shadows evs w s) {f : Option (Event σ ι τ)}
    (h : w.traversal.next = (f, t)) {v : Visit σ ι τ RecordIndex}
    (hv : v ∈ w.traversal.pending) : ∃ rec, t.record? v.label = some rec := by
  have same : w.traversal.pending = s.traversal.pending :=
    congrArg Frontier.toList k.beside.inStep.frontier
  have met : v.label < s.states.length :=
    Search.Coherent.lt_of_states (k.coherent.pending v (same ▸ hv))
  have count : w.traversal.records.size = s.states.length := by
    have words := congrArg List.length k.beside.words
    rw [List.length_map, Array.length_toList, Search.words, k.run.length_inherited] at words
    exact words
  have records : t.records = w.traversal.records := by
    rw [← w.traversal.records_next, h]
  have lt : v.label < t.records.size := by
    rw [records, count]
    exact met
  exact ⟨_, Array.getElem?_eq_getElem lt⟩

theorem record_of_start (k : Shadows evs w s) {q : σ}
    (h : w.traversal.next = (some (.start r q), t)) : ∃ rec, t.record? r = some rec := by
  cases Traversal.advances_of_next h with
  | start ready head fresh => exact k.record_of_pending h (head ▸ List.mem_cons_self)

/-- Attending to an event that is no start never fails for want of a record. -/
theorem attend_eq_hear (k : Shadows evs w s) {f : Event σ ι τ}
    (h : w.traversal.next = (some f, t)) (quiet : f.isStart = false) :
    attend f ⟨t, w.seen⟩ = .onward (AccessWords.hear ⟨t, w.seen⟩ f) := by
  cases Traversal.advances_of_next h with
  | initial idle unread => rfl
  | start ready head fresh => cases quiet
  | @edge v v' rest p _ ready head begun step =>
    obtain ⟨rec, found⟩ := k.record_of_pending h (head ▸ List.mem_cons_self)
    exact attend_edge (w := ⟨t, w.seen⟩) found p.1 p.2 (M.successor p.2)
  | finish ready head begun step => rfl

end Shadows

/-- A search for states comes along with the words. -/
def Shadowed (w : AccessWords M A) : Prop :=
  ∃ evs, ∃ s : States M A .breadthFirst, Shadows evs w s

/-- A call for the next word goes on from event to event and takes each from the backlog. -/
theorem Shadowed.serves (k : w.Shadowed) :
    Serves source attend next (fun w => w.traversal.backlog) Shadowed w := by
  obtain ⟨evs, s, k⟩ := k
  cases hn : w.traversal.next with
  | mk f t =>
    have taken : w.source = (f, ⟨t, w.seen⟩) := by rw [source, hn]
    cases f with
    | none => exact .ended taken (next_of_none hn)
    | some f =>
      cases hf : f.isStart with
      | false =>
        obtain ⟨e, u, -, k', -, -⟩ := k.hear hn
        have less : (hear ⟨t, w.seen⟩ f).traversal.backlog < w.traversal.backlog := by
          have one := Traversal.backlog_next hn hf
          rw [backlog_hear]
          change t.backlog < _
          omega
        exact .onward taken (k.attend_eq_hear hn hf) ⟨_, u, k'⟩ less (next_of_hear hn hf)
      | true =>
        cases f with
        | start r q =>
          obtain ⟨rec, found⟩ := k.record_of_start hn
          exact .back taken (attend_start (w := ⟨t, w.seen⟩) found q) (next_of_start hn)
        | initial q => cases hf
        | edge r i x q => cases hf
        | finish r q b => cases hf

end AccessWords

/-- A call of `next` in the state `s`, whose events come from `source`: it returns when it has
taken some `k + 1` of them, at most one more than `bound`; and if it returns with nothing, every
later call does and changes nothing. -/
structure Returns {α ε ς : Type} (source : ς → Option ε × ς) (attend : ε → ς → Turn α ς)
    (next : ς → Option α × ς) (bound : Nat) (s : ς) : Prop where
  events : ∃ k ≤ bound, pull source attend k s = none ∧
    pull source attend (k + 1) s = some (next s)
  ended : (next s).1 = none → (source (next s).2).1 = none ∧
    ∀ m, draw next (next s).2 m = (.replicate m none, (next s).2)

theorem Search.Coherent.returns [Inhabited δ] {s : Search M A o δ} (c : s.Coherent)
    {evs : List (Search.Event ι τ)} (run : Search.View.Runs M A o evs s.view) :
    Returns Search.next Search.attend Search.nextState s.traversal.backlog s where
  events := Serves.pull (fun _ => Search.Coherent.serves) c
  ended := by
    intro nothing
    obtain ⟨-, more, run', gives⟩ := c.runs_nextState run
    have ended : s.nextState.2.next.1 = none := by
      rcases gives with ⟨-, -, ended⟩ | ⟨r, one, given⟩
      · exact ended
      · have mem : r ∈ Search.started (evs ++ more) := by
          rw [Search.started_append, one]
          simp
        have met := List.getElem?_eq_getElem (run'.recounts.met_of_started mem)
        cases (nothing.symm.trans given).trans met
    exact ⟨ended, draw_of_none (Search.nextState_of_ended (Search.next_eq_none_iff.1 ended))⟩

theorem AccessWords.Shadowed.returns {w : AccessWords M A} (k : w.Shadowed) :
    Returns source attend next w.traversal.backlog w where
  events := Serves.pull (fun _ => serves) k
  ended := by
    intro nothing
    obtain ⟨evs, s, k⟩ := k
    obtain ⟨more, k', gives⟩ := k.next
    rw [nothing] at gives
    generalize s.nextState.1 = state at gives
    cases gives with
    | ended started unread pending =>
      have ended : w.next.2.traversal.next.1 = none := by
        rw [k'.beside.inStep.next.1]
        exact Traversal.next_eq_none_iff.2 ⟨unread, pending⟩
      refine ⟨ended, draw_of_none ?_⟩
      have stays := Traversal.next_of_none (Prod.ext ended rfl)
      have again : w.next.2.traversal.next = (none, w.next.2.traversal) := Prod.ext ended stays
      exact next_of_none again

namespace AccessWords

/-- Each call for a state or an access word returns after finitely many events, also where the
whole traversal goes on for ever, and after one that gives nothing all do. -/
theorem pulls_return (M : TransitionSystem σ ι τ) (A : List ι) (n : Nat) :
    (∀ o : Order,
      let s := (draw Search.nextState (Search.begin M A o Unit) n).2
      Returns Search.next Search.attend Search.nextState s.traversal.backlog s) ∧
    let w := (draw next (begin M A) n).2
    Returns source attend next w.traversal.backlog w := by
  constructor
  · intro o
    obtain ⟨s, rfl, c, evs, k, run, -, -⟩ := Search.exists_runs_draw (δ := Unit) M A o n
    exact c.returns run
  · obtain ⟨evs, d⟩ := Drawn.of_calls M A n
    exact Shadowed.returns ⟨evs, _, d.shadows⟩

end AccessWords

end Exploration
