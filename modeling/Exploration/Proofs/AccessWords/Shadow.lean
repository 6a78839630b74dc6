import Exploration.AccessWords
import Exploration.Search.States
import Exploration.Proofs.Search.Inheritance
import Exploration.Proofs.Search.Queue
import Exploration.Proofs.Traversal.InStep

/-!
# The search behind access words

Access words schedule a state when it is seen for the first time, and so does a search, so their
traversals report the same events. `Shadows evs w s` says that `w` and `s` have come through the
events `evs` together: the words kept with the records of `w` are then those that the records of
`s` inherit.
-/

namespace Exploration

variable {σ ι τ δ : Type} {M : TransitionSystem σ ι τ} {A : List ι}

variable [DecidableEq σ] [Hashable σ]

namespace Search

variable {o : Order} {s u : Search M A o δ}

variable [Inhabited δ]

theorem nextState_of_none (h : s.next = (none, u)) : s.nextState = (none, u) := by
  rw [nextState]
  split <;> simp_all

theorem nextState_of_ended (h : s.view.unread = [] ∧ s.view.pending = []) :
    s.nextState = (none, s) := by
  have none := next_eq_none_iff.2 h
  exact nextState_of_none (Prod.ext none (next_of_none (Prod.ext none rfl)))

theorem nextState_of_start {r : RecordIndex} (h : s.next = (some (.start r), u)) :
    s.nextState = ((u.record? r).map (·.state), u) := by
  rw [nextState]
  split <;> simp_all

theorem nextState_of_ne {e : Event ι τ} (h : s.next = (some e, u)) (he : e.kind ≠ .start) :
    s.nextState = u.nextState := by
  rw [nextState]
  cases e with
  | start r => exact absurd rfl he
  | initial r => split <;> simp_all
  | edge k v i x r => split <;> simp_all
  | finish r b => split <;> simp_all

end Search

namespace AccessWords

/-- What is scheduled at an event. -/
def hear (w : AccessWords M A) : Event σ ι τ → AccessWords M A
  | .initial s => w.enroll s []
  | .start _ _ => w
  | .edge r i _ s => w.enroll s (w.wordOf r ++ [i])
  | .finish _ _ _ => w

theorem backlog_hear (w : AccessWords M A) (f : Event σ ι τ) :
    (w.hear f).traversal.backlog = w.traversal.backlog := by
  cases f with
  | initial s => exact w.backlog_enroll s []
  | start r s => rfl
  | edge r i x s => exact w.backlog_enroll s _
  | finish r s b => rfl

section Next

variable {w : AccessWords M A} {t : Traversal M A .breadthFirst (List ι)}

theorem next_of_none (h : w.traversal.next = (none, t)) : w.next = (none, ⟨t, w.seen⟩) := by
  rw [next]
  split <;> simp_all

theorem next_of_start {r : RecordIndex} {s : σ} (h : w.traversal.next = (some (.start r s), t)) :
    w.next = (some ⟨s, wordOf ⟨t, w.seen⟩ r⟩, ⟨t, w.seen⟩) := by
  rw [next]
  split <;> simp_all

theorem next_of_hear {f : Event σ ι τ} (h : w.traversal.next = (some f, t))
    (hf : f.isStart = false) : w.next = (hear ⟨t, w.seen⟩ f).next := by
  rw [next]
  cases f with
  | start r s => cases hf
  | initial s => split <;> simp_all [hear]
  | edge r i x s => split <;> simp_all [hear]
  | finish r s b => split <;> simp_all [hear]

end Next

/-- The traversals are in step and the same states are known; the records are kept with the
words `words`. -/
structure Beside (w : AccessWords M A) (s : Search M A .breadthFirst δ) (words : List (List ι)) :
    Prop where
  inStep : w.traversal.InStep s.traversal
  words : w.traversal.records.toList.map Record.data = words
  seen : ∀ t, t ∈ w.seen ↔ t ∈ s.states

namespace Beside

variable {w : AccessWords M A} {s : Search M A .breadthFirst δ} {words : List (List ι)}

theorem wordOf_eq (b : Beside w s words) {r : RecordIndex} {word : List ι}
    (h : words[r]? = some word) : w.wordOf r = word := by
  have kept : w.traversal.records[r]?.map Record.data = some word := by
    rw [← h, ← b.words, List.getElem?_map, Array.getElem?_toList]
  rw [wordOf, kept]
  rfl

theorem enroll_known (b : Beside w s words) {t : σ} (met : t ∈ s.states) (word : List ι) :
    Beside (w.enroll t word) s words := by
  rw [enroll, if_pos ((b.seen t).2 met)]
  exact b

/-- A new state is scheduled by both. -/
theorem enroll_new [Inhabited δ] (b : Beside w s words)
    (count : s.traversal.recordCount = words.length) {t : σ} (new : t ∉ s.states)
    (word : List ι) : Beside (w.enroll t word) (s.enter t) (words ++ [word]) := by
  have count : w.traversal.recordCount = s.traversal.recordCount := by
    rw [count, ← b.words, Traversal.recordCount]
    simp
  rw [enroll, if_neg fun seen => new ((b.seen t).1 seen)]
  constructor
  case inStep =>
    constructor
    · exact b.inStep.unread
    · rw [Search.traversal_enter, Traversal.frontier_schedule, Traversal.frontier_schedule, count,
        b.inStep.frontier]
  case words =>
    rw [Traversal.records_schedule, Array.toList_push, List.map_append, b.words]
    rfl
  case seen =>
    intro q
    rw [Search.states_enter, Std.HashSet.mem_insert, List.mem_append, b.seen, List.mem_singleton]
    simp only [beq_iff_eq]
    rw [or_comm, eq_comm]

/-- Colors do not matter. -/
theorem recolor (b : Beside w s words) (r : RecordIndex) (c : Color) :
    Beside w (s.mark r c) words where
  inStep := b.inStep
  words := b.words
  seen := by
    rw [Search.states_mark]
    exact b.seen

end Beside

/-- The events `evs` lead to `w` as well as to `s`. -/
structure Shadows [Inhabited δ] (evs : List (Search.Event ι τ)) (w : AccessWords M A)
    (s : Search M A .breadthFirst δ) : Prop where
  coherent : s.Coherent
  run : Search.View.Runs M A .breadthFirst evs s.view
  beside : Beside w s (Search.words evs)

namespace Shadows

variable [Inhabited δ] {evs : List (Search.Event ι τ)} {w : AccessWords M A}
  {s : Search M A .breadthFirst δ}

theorem begin : Shadows [] (AccessWords.begin M A) (Search.begin M A .breadthFirst δ) where
  coherent := .begin
  run := .begin
  beside := ⟨⟨rfl, rfl⟩, rfl, by simp [AccessWords.begin, Search.begin, Search.states]⟩

/-- Both do the same at an event. -/
theorem observe (k : Shadows evs w s) {f : Event σ ι τ} {t : Traversal M A .breadthFirst (List ι)}
    {t' : Traversal M A .breadthFirst RecordIndex} (adv : s.traversal.Advances f t')
    (records : t'.records = s.traversal.records)
    (turned : Beside ⟨t, w.seen⟩ (s.withTraversal t') (Search.words evs)) :
    Beside (AccessWords.hear ⟨t, w.seen⟩ f) ((s.withTraversal t').observe f).2
      (Search.words (evs ++ [((s.withTraversal t').observe f).1])) := by
  have c := k.coherent
  have length : (Search.words evs).length = s.states.length := k.run.length_inherited _ _
  have count : (s.withTraversal t').traversal.recordCount = (Search.words evs).length := by
    rw [length, ← c.size_records, ← records]
    rfl
  cases adv with
  | @initial q _ idle unread _ pending =>
    rw [Search.observe]
    split
    · next r hr =>
      have met : s.states[r]? = some q := (c.find q r).1 hr
      have lt : r < (Search.words evs).length :=
        length ▸ (List.getElem?_eq_some_iff.1 met).1
      rw [Search.words, Search.inherited_known lt]
      exact turned.enroll_known (List.mem_of_getElem? met) []
    · next hr =>
      have new : q ∉ s.states := c.find_eq_none_iff.1 hr
      have next : (Search.words evs).length = (s.withTraversal t').recordCount :=
        length.trans s.length_states
      rw [Search.words, Search.inherited_root next]
      exact turned.enroll_new count new []
  | start ready head fresh unread _ pending =>
    rw [Search.observe, Search.words, Search.inherited_start]
    exact turned.recolor _ _
  | @edge v v' rest p _ ready head begun step unread _ pending =>
    have lt : v.label < (Search.words evs).length := by
      rw [length]
      exact Search.Coherent.lt_of_states (c.pending v (head ▸ List.mem_cons_self))
    obtain ⟨word, source⟩ : ∃ word, (Search.words evs)[v.label]? = some word :=
      ⟨_, List.getElem?_eq_getElem lt⟩
    rw [Search.observe, c.ownIndex_withTraversal records, Search.edgeTo, AccessWords.hear,
      turned.wordOf_eq source]
    split
    · next hr =>
      have new : M.successor p.2 ∉ s.states := c.find_eq_none_iff.1 hr
      rw [Search.words, Search.inherited_tree source]
      exact turned.enroll_new count new _
    · next r hr =>
      have met : M.successor p.2 ∈ s.states := List.mem_of_getElem? ((c.find _ r).1 hr)
      rw [Search.words, Search.inherited_edge (Search.kindBetween_ne_tree _ _ _ _)]
      have known := turned.enroll_known met (word ++ [p.1])
      split
      · exact known.recolor r .gray
      · exact known
  | finish ready head begun step unread _ pending =>
    rw [Search.observe, Search.words, Search.inherited_finish]
    exact turned.recolor _ _

/-- The next event is heard by both. -/
theorem hear (k : Shadows evs w s) {f : Event σ ι τ} {t : Traversal M A .breadthFirst (List ι)}
    (h : w.traversal.next = (some f, t)) :
    ∃ e u, s.next = (some e, u) ∧ Shadows (evs ++ [e]) (AccessWords.hear ⟨t, w.seen⟩ f) u ∧
      (f.isStart = false → e.kind ≠ .start) ∧
      ∀ r q, f = .start r q → e = .start r ∧ u.states[r]? = some q := by
  obtain ⟨reports, ahead⟩ := k.beside.inStep.next
  have records : t.records = w.traversal.records := by
    rw [← w.traversal.records_next, h]
  rw [h] at reports ahead
  cases hs : s.traversal.next with
  | mk f' t' =>
    rw [hs] at reports ahead
    obtain rfl : f' = some f := reports.symm
    have step : s.next =
        (some ((s.withTraversal t').observe f).1, ((s.withTraversal t').observe f).2) := by
      rw [Search.next, hs]
    obtain ⟨c, adv⟩ := k.coherent.advances step
    have turned : Beside ⟨t, w.seen⟩ (s.withTraversal t') (Search.words evs) := by
      refine ⟨ahead, ?_, k.beside.seen⟩
      rw [records]
      exact k.beside.words
    have records' : t'.records = s.traversal.records := by
      rw [← s.traversal.records_next, hs]
    have told := Traversal.advances_of_next hs
    refine ⟨_, _, step, ⟨c, k.run.event adv, k.observe told records' turned⟩, ?_, ?_⟩
    · intro quiet start
      rw [Search.kind_observe_eq_start_iff, quiet] at start
      cases start
    · rintro r q rfl
      refine ⟨congrArg Search.Event.start (k.coherent.ownIndex_withTraversal records' r), ?_⟩
      rw [Search.observe, Search.states_mark]
      cases told with
      | @start v rest _ ready head fresh =>
        exact k.coherent.pending v (head ▸ List.mem_cons_self)

end Shadows

/-- What the next calls give: nothing once all is told, or else the record started next. -/
inductive Gives [Inhabited δ] (evs more : List (Search.Event ι τ))
    (s : Search M A .breadthFirst δ) : Option (Access σ ι) → Option σ → Prop
  | ended (started : Search.started more = []) (unread : s.view.unread = [])
      (pending : s.view.pending = []) : Gives evs more s none none
  | access {r : RecordIndex} {a : Access σ ι} (started : Search.started more = [r])
      (state : s.states[r]? = some a.state)
      (word : (Search.words (evs ++ more))[r]? = some a.word) :
      Gives evs more s (some a) (some a.state)

theorem Gives.cons [Inhabited δ] {evs more : List (Search.Event ι τ)} {e : Search.Event ι τ}
    {s : Search M A .breadthFirst δ} {a : Option (Access σ ι)} {t : Option σ}
    (gives : Gives (evs ++ [e]) more s a t) (quiet : e.kind ≠ .start) :
    Gives evs (e :: more) s a t := by
  have none : e.started? = none := by
    cases e with
    | start r => exact absurd rfl quiet
    | initial r => rfl
    | edge k u i x v => rfl
    | finish r b => rfl
  have same : Search.started (e :: more) = Search.started more := by
    simp [Search.started, none]
  cases gives with
  | ended started unread pending => exact .ended (same.trans started) unread pending
  | access started state word =>
    rw [List.append_assoc] at word
    exact .access (same.trans started) state word

theorem Gives.busy [Inhabited δ] {evs more : List (Search.Event ι τ)}
    {s : Search M A .breadthFirst δ} {a : Option (Access σ ι)} {t : Option σ}
    (gives : Gives evs more s a t) :
    (Search.started more).length = 1 ∨ s.view.unread = [] ∧ s.view.pending = [] := by
  cases gives with
  | ended started unread pending => exact .inr ⟨unread, pending⟩
  | access started state word => exact .inl (by rw [started, List.length_singleton])

theorem Gives.map_state [Inhabited δ] {evs more : List (Search.Event ι τ)}
    {s : Search M A .breadthFirst δ} {a : Option (Access σ ι)} {t : Option σ}
    (gives : Gives evs more s a t) : a.map Access.state = t := by
  cases gives with
  | ended => rfl
  | access => rfl

/-- Both go on to the same start. -/
theorem Shadows.next [Inhabited δ] {evs : List (Search.Event ι τ)} {w : AccessWords M A}
    {s : Search M A .breadthFirst δ} (k : Shadows evs w s) : ∃ more,
      Shadows (evs ++ more) w.next.2 s.nextState.2 ∧
      Gives evs more s.nextState.2 w.next.1 s.nextState.1 := by
  -- Every event but a start takes one from the backlog.
  induction h : w.traversal.backlog using Nat.strongRecOn generalizing evs w s with
  | ind n ih =>
    cases hw : w.traversal.next with
    | mk f t =>
      cases f with
      | none =>
        obtain ⟨same, -⟩ := k.beside.inStep.next
        obtain rfl := Traversal.next_of_none hw
        have ended : s.view.unread = [] ∧ s.view.pending = [] := by
          apply Traversal.next_eq_none_iff.1
          rw [← same, hw]
        rw [next_of_none hw, Search.nextState_of_ended ended]
        exact ⟨[], by simpa using k, .ended rfl ended.1 ended.2⟩
      | some f =>
        obtain ⟨e, u, step, k', quiet, start⟩ := k.hear hw
        cases hf : f.isStart with
        | false =>
          have less : t.backlog < n := by
            have taken := Traversal.backlog_next hw hf
            omega
          rw [next_of_hear hw hf, Search.nextState_of_ne step (quiet hf)]
          obtain ⟨more, after, gives⟩ := ih t.backlog less k' (backlog_hear _ f)
          refine ⟨e :: more, ?_, gives.cons (quiet hf)⟩
          rwa [List.append_assoc] at after
        | true =>
          cases f with
          | start r q =>
            obtain ⟨rfl, met⟩ := start r q rfl
            obtain ⟨-, word, -, hr, -⟩ := k'.run.genuine met
            have state : (u.record? r).map (·.state) = some q :=
              (u.getElem?_states r).symm.trans met
            rw [next_of_start hw, Search.nextState_of_start step, state]
            refine ⟨[.start r], k', .access rfl met ?_⟩
            rw [hr]
            exact congrArg some (k'.beside.wordOf_eq hr).symm
          | initial q => cases hf
          | edge r i x q => cases hf
          | finish r q b => cases hf

end AccessWords

end Exploration
