import Exploration.Proofs.Search.History
import Exploration.Proofs.Traversal.InStep

/-!
# A search as a traversal

A search adds records, colors and an index to a traversal, but it decides nothing that a simple
consumer of the traversal could not decide: the consumer that schedules a state the first time an
initial event or an edge offers it. `Explorer` is a traversal with that consumer. Called alike, a
search and an explorer report the same, whatever is skipped.
-/

namespace Exploration

variable {σ ι τ δ ε : Type} {M : TransitionSystem σ ι τ} {A : List ι} {o : Order}

/-- A traversal and the states that its events have offered so far. -/
structure Explorer (M : TransitionSystem σ ι τ) (A : List ι) (o : Order) (ε : Type) where
  traversal : Traversal M A o ε
  offered : List σ

namespace Explorer

def begin (M : TransitionSystem σ ι τ) (A : List ι) (o : Order) (ε : Type) : Explorer M A o ε :=
  ⟨.begin M A o ε, []⟩

variable [DecidableEq σ]

/-- Schedules the state that an event offers, with the data `tag` gives it, unless an earlier
event offered the state. -/
def attend (tag : Event σ ι τ → ε) (x : Explorer M A o ε) (e : Event σ ι τ) :
    Explorer M A o ε :=
  match e.offer? with
  | none => x
  | some s =>
    ⟨if s ∈ x.offered then x.traversal else x.traversal.schedule s (tag e), x.offered ++ [s]⟩

/-- The call of a search, made to an explorer. The data of the search are not the explorer's. -/
def perform (tag : Event σ ι τ → ε) (x : Explorer M A o ε) :
    Search.Move δ → Traversal.Report σ ι τ × Explorer M A o ε
  | .next =>
    match x.traversal.next with
    | (some e, t) => (.event e, attend tag ⟨t, x.offered⟩ e)
    | (none, t) => (.ended, ⟨t, x.offered⟩)
  | .skipLetter =>
    let p := x.traversal.perform .skipLetter
    (p.1, ⟨p.2, x.offered⟩)
  | .skipState =>
    let p := x.traversal.perform .skipState
    (p.1, ⟨p.2, x.offered⟩)
  | .modifyData _ _ => (.modified, x)

def play (tag : Event σ ι τ → ε) (x : Explorer M A o ε) :
    List (Search.Move δ) → List (Traversal.Report σ ι τ) × Explorer M A o ε
  | [] => ([], x)
  | m :: ms =>
    let p := x.perform tag m
    let q := p.2.play tag ms
    (p.1 :: q.1, q.2)

end Explorer

variable [DecidableEq σ] [Hashable σ]

namespace Search

/-- A report of the search `s` and one of a traversal tell the same: where the search names the
record of a state, the traversal names the state. -/
inductive Corresponds (s : Search M A o δ) : Report ι τ → Traversal.Report σ ι τ → Prop
  | initial {r : RecordIndex} {t : σ} (state : (s.record? r).map (·.state) = some t) :
      Corresponds s (.event (.initial r)) (.event (.initial t))
  | start {r : RecordIndex} {t : σ} (state : (s.record? r).map (·.state) = some t) :
      Corresponds s (.event (.start r)) (.event (.start r t))
  | edge {k : EdgeKind} {r v : RecordIndex} {i : ι} {x : τ} {t : σ}
      (state : (s.record? v).map (·.state) = some t) :
      Corresponds s (.event (.edge k r i x v)) (.event (.edge r i x t))
  | finish {r : RecordIndex} {t : σ} {b : Option (Backtrack ι τ)}
      (state : (s.record? r).map (·.state) = some t) :
      Corresponds s (.event (.finish r b)) (.event (.finish r t b))
  | ended : Corresponds s .ended .ended
  | skippedLetter (r : RecordIndex) : Corresponds s (.skippedLetter r) (.skippedLetter r)
  | skippedState (r : RecordIndex) : Corresponds s (.skippedState r) (.skippedState r)
  | refused : Corresponds s .refused .refused
  | modified : Corresponds s .modified .modified

variable {s : Search M A o δ}

/-- What an event offers is entered if it is new; otherwise nothing is scheduled. -/
theorem observe_offer [Inhabited δ] (s : Search M A o δ) (f : Exploration.Event σ ι τ) :
    (∃ q, f.offer? = some q ∧ s.find? q = none ∧ (s.observe f).2 = s.enter q) ∨
      (∀ q, f.offer? = some q → s.find? q ≠ none) ∧ (s.observe f).2.traversal = s.traversal ∧
        (s.observe f).2.states = s.states := by
  cases f with
  | initial q =>
    cases known : s.find? q with
    | none => exact .inl ⟨q, rfl, known, by rw [observe, known]⟩
    | some r =>
      -- The state has a record, so the event is only passed on.
      have same : (s.observe (.initial q)).2 = s := by rw [observe, known]
      refine .inr ⟨?_, by rw [same], by rw [same]⟩
      rintro _ ⟨⟩
      simp [known]
  | start r q => exact .inr ⟨by simp [Event.offer?], rfl, s.states_mark _ _⟩
  | edge r i x q =>
    cases known : s.find? q with
    | none => exact .inl ⟨q, rfl, known, by rw [observe, edgeTo, known]⟩
    | some v =>
      -- At most the color of the record changes.
      have same : (s.observe (.edge r i x q)).2 =
          if o = .breadthFirst ∧ s.color v = .white then s.mark v .gray else s := by
        rw [observe, edgeTo, known]
      refine .inr ⟨?_, ?_, ?_⟩
      · rintro _ ⟨⟩
        simp [known]
      · rw [same]
        split <;> rfl
      · rw [same]
        split
        · exact s.states_mark v .gray
        · rfl
  | finish r q b => exact .inr ⟨by simp [Event.offer?], rfl, s.states_mark _ _⟩

namespace Coherent

variable [Inhabited δ]

/-- An event of the traversal and what the search makes of it. -/
theorem observe_corresponds (c : s.Coherent) {f : Exploration.Event σ ι τ}
    {t : Traversal M A o RecordIndex} (adv : s.traversal.Advances f t)
    (records : t.records = s.traversal.records) :
    Corresponds ((s.withTraversal t).observe f).2 (.event ((s.withTraversal t).observe f).1)
      (.event f) := by
  cases adv with
  | @initial q _ idle unread =>
    rw [Search.observe]
    split
    · next r known => exact .initial (state_record ((c.find q r).1 known))
    · next known =>
      refine .initial (state_record ?_)
      rw [states_enter, View.getElem?_snoc, if_pos (length_states _).symm]
  | @start v rest _ ready head fresh =>
    rw [Search.observe, c.ownIndex_withTraversal records]
    refine .start (state_record ?_)
    rw [states_mark]
    exact c.pending v (head ▸ List.mem_cons_self)
  | @edge v v' rest p _ ready head begun step =>
    rw [Search.observe, c.ownIndex_withTraversal records, edgeTo]
    split
    · next known =>
      refine .edge (state_record ?_)
      rw [states_enter, View.getElem?_snoc, if_pos (length_states _).symm]
    · next r known =>
      refine .edge (state_record ?_)
      have met : s.states[r]? = some (M.successor p.2) := (c.find _ r).1 known
      dsimp only
      split
      · rw [states_mark]
        exact met
      · exact met
  | @finish v v' rest _ ready head begun step unread records' pending =>
    have sound : ∀ a ∈ rest, s.states[a.label]? = some a.state :=
      fun a ha => c.pending a (head ▸ List.mem_cons_of_mem v ha)
    rw [Search.observe, c.ownIndex_withTraversal records,
      (c.turn unread records pending sound).1.map_ownBacktrack]
    refine .finish (state_record ?_)
    rw [states_mark]
    exact c.pending v (head ▸ List.mem_cons_self)

/-- A search skips where its traversal does, and nothing else of it changes. -/
theorem perform_skipLetter (c : s.Coherent) :
    Corresponds (s.perform .skipLetter).2 (s.perform .skipLetter).1
        (s.traversal.perform .skipLetter).1 ∧
      (s.perform .skipLetter).2 = s.withTraversal (s.traversal.perform .skipLetter).2 := by
  cases hp : s.traversal.pending with
  | nil =>
    rw [Search.perform, Traversal.perform, head?_of_nil hp, Traversal.head?_eq, hp,
      skipLetter_of_nil hp, Traversal.skipLetter_of_nil hp]
    exact ⟨.refused, rfl⟩
  | cons v rest =>
    obtain ⟨t, ht, -⟩ := Traversal.skipLetter_of_cons hp
    rw [Search.perform, Traversal.perform, c.head?_of_cons hp, Traversal.head?_eq, hp, skipLetter,
      ht]
    exact ⟨.skippedLetter v.label, rfl⟩

theorem perform_skipState (c : s.Coherent) :
    Corresponds (s.perform .skipState).2 (s.perform .skipState).1
        (s.traversal.perform .skipState).1 ∧
      (s.perform .skipState).2 = s.withTraversal (s.traversal.perform .skipState).2 := by
  cases hp : s.traversal.pending with
  | nil =>
    rw [Search.perform, Traversal.perform, head?_of_nil hp, Traversal.head?_eq, hp,
      skipState_of_nil hp, Traversal.skipState_of_nil hp]
    exact ⟨.refused, rfl⟩
  | cons v rest =>
    obtain ⟨t, ht, -⟩ := Traversal.skipState_of_cons hp
    rw [Search.perform, Traversal.perform, c.head?_of_cons hp, Traversal.head?_eq, hp, skipState,
      ht]
    exact ⟨.skippedState v.label, rfl⟩

end Coherent

end Search

namespace Explorer

/-- The explorer `x` is where the search `s` is: the same is left to report, as many records were
made, and the states offered are those met. -/
structure Beside (x : Explorer M A o ε) (s : Search M A o δ) : Prop where
  inStep : x.traversal.InStep s.traversal
  count : x.traversal.recordCount = s.traversal.recordCount
  offered : ∀ q, q ∈ x.offered ↔ q ∈ s.states

variable {x : Explorer M A o ε} {s : Search M A o δ}

theorem Beside.begin : Beside (Explorer.begin M A o ε) (Search.begin M A o δ) where
  inStep := ⟨rfl, rfl⟩
  count := rfl
  offered := by simp [Explorer.begin, Search.begin, Search.states]

/-- The same event makes both schedule the same. -/
theorem Beside.attend [Inhabited δ] (b : Beside x s)
    (find : ∀ {q : σ}, s.find? q = none ↔ q ∉ s.states) (tag : Event σ ι τ → ε)
    (f : Event σ ι τ) : Beside (x.attend tag f) (s.observe f).2 := by
  rcases s.observe_offer f with ⟨q, offer, new, after⟩ | ⟨known, traversal, states⟩
  · have new : q ∉ s.states := find.1 new
    have fresh : q ∉ x.offered := fun old => new ((b.offered q).1 old)
    rw [after, Explorer.attend, offer]
    dsimp only
    rw [if_neg fresh]
    constructor
    case inStep => exact b.inStep.schedule b.count q _ _
    case count =>
      rw [Search.traversal_enter, Traversal.recordCount_schedule, Traversal.recordCount_schedule,
        b.count]
    case offered =>
      intro p
      rw [Search.states_enter, List.mem_append, List.mem_append, b.offered]
  · cases offer : f.offer? with
    | none =>
      rw [Explorer.attend, offer]
      exact ⟨traversal ▸ b.inStep, traversal ▸ b.count, states ▸ b.offered⟩
    | some q =>
      have met : q ∈ s.states :=
        Decidable.not_not.1 fun new => known q offer (find.2 new)
      rw [Explorer.attend, offer]
      dsimp only
      rw [if_pos ((b.offered q).2 met)]
      refine ⟨traversal ▸ b.inStep, traversal ▸ b.count, fun p => ?_⟩
      rw [states, List.mem_append, b.offered, List.mem_singleton]
      exact ⟨fun h => h.elim id fun e => e ▸ met, .inl⟩

/-- A call of both traversals that makes no record. -/
theorem Beside.turn (b : Beside x s) {t : Traversal M A o ε} {u : Traversal M A o RecordIndex}
    (ahead : t.InStep u) (count : t.recordCount = x.traversal.recordCount)
    (count' : u.recordCount = s.traversal.recordCount) :
    Beside ⟨t, x.offered⟩ (s.withTraversal u) where
  inStep := ahead
  count := count.trans (b.count.trans count'.symm)
  offered := b.offered

/-- Called alike, both report the same and stay together. -/
theorem Beside.perform [Inhabited δ] (b : Beside x s) (c : s.Coherent) (tag : Event σ ι τ → ε)
    (m : Search.Move δ) :
    Beside (x.perform tag m).2 (s.perform m).2 ∧
      Search.Corresponds (s.perform m).2 (s.perform m).1 (x.perform tag m).1 := by
  cases m with
  | next =>
    obtain ⟨same, ahead⟩ := b.inStep.next
    have records := x.traversal.records_next
    have records' := s.traversal.records_next
    cases hs : s.traversal.next with
    | mk f u =>
      cases hx : x.traversal.next with
      | mk f' t =>
        rw [hs, hx] at same ahead
        rw [hx] at records
        rw [hs] at records'
        obtain rfl : f' = f := same
        have turned : Beside ⟨t, x.offered⟩ (s.withTraversal u) :=
          b.turn ahead (Traversal.recordCount_of_records records)
            (Traversal.recordCount_of_records records')
        rw [Search.perform, Search.next, hs, Explorer.perform, hx]
        cases f' with
        | none => exact ⟨turned, .ended⟩
        | some f =>
          have adv := Traversal.advances_of_next hs
          exact ⟨turned.attend c.find_eq_none_iff tag f, c.observe_corresponds adv records'⟩
  | skipLetter =>
    obtain ⟨same, ahead⟩ := b.inStep.perform_skipLetter
    obtain ⟨told, after⟩ := c.perform_skipLetter
    rw [← same] at told
    refine ⟨?_, told⟩
    rw [after]
    exact b.turn ahead (Traversal.recordCount_perform _ (by simp))
      (Traversal.recordCount_perform _ (by simp))
  | skipState =>
    obtain ⟨same, ahead⟩ := b.inStep.perform_skipState
    obtain ⟨told, after⟩ := c.perform_skipState
    rw [← same] at told
    refine ⟨?_, told⟩
    rw [after]
    exact b.turn ahead (Traversal.recordCount_perform _ (by simp))
      (Traversal.recordCount_perform _ (by simp))
  | modifyData r change =>
    have same : (s.modifyData r change).states = s.states := s.states_modify r fun _ => rfl
    exact ⟨⟨b.inStep, b.count, fun q => same ▸ b.offered q⟩, .modified⟩

/-- Whatever was called, the explorer is where the search is. -/
theorem Beside.play [Inhabited δ] (b : Beside x s) (c : s.Coherent) (tag : Event σ ι τ → ε)
    (ms : List (Search.Move δ)) :
    Beside (x.play tag ms).2 (s.play ms).2 ∧ (s.play ms).2.Coherent := by
  induction ms generalizing x s with
  | nil => exact ⟨b, c⟩
  | cons m ms ih => exact ih (b.perform c tag m).1 (c.perform m).1

end Explorer

/-- A search and a traversal whose consumer schedules each state once, the first time it is
offered, report the same at every call. -/
theorem Search.corresponds_explorer [Inhabited δ] (tag : Exploration.Event σ ι τ → ε)
    (ms : List (Search.Move δ)) (m : Search.Move δ) :
    let s := ((Search.begin M A o δ).play ms).2
    let x := ((Explorer.begin M A o ε).play tag ms).2
    Search.Corresponds (s.perform m).2 (s.perform m).1 (x.perform tag m).1 := by
  obtain ⟨b, c⟩ := Explorer.Beside.begin.play (δ := δ) .begin tag ms
  exact (b.perform c tag m).2

end Exploration
