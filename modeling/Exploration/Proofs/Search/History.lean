import Exploration.Proofs.Search.View

/-!
# Histories of a search

The consumer of a search may ask for the next event, skip, and change data, in any order. `play`
makes a list of such moves and keeps the reports. On the view every move is one of the few cases
of `View.Moves`; `View.Reached` collects the histories they can give, so what holds of every
history is proved once by induction on `Reached`.
-/

namespace Exploration.Search

/-- A call of the consumer. -/
inductive Move (δ : Type) where
  | next
  | skipLetter
  | skipState
  | modifyData (record : RecordIndex) (change : δ → δ)

/-- What came of a call. A skip names the record it hit. -/
inductive Report (ι τ : Type) where
  | event (e : Event ι τ)
  | ended
  | skippedLetter (record : RecordIndex)
  | skippedState (record : RecordIndex)
  | refused
  | modified
  deriving DecidableEq

namespace View

variable {σ ι τ : Type}

inductive Moves (M : TransitionSystem σ ι τ) (A : List ι) (o : Order) (w : View σ ι τ) :
    Report ι τ → View σ ι τ → Prop
  | event {e : Event ι τ} {w' : View σ ι τ} (advance : w.Advances M A o e w') :
      Moves M A o w (.event e) w'
  | ended (unread : w.unread = []) (pending : w.pending = []) : Moves M A o w .ended w
  | skippedLetter {v : Visit σ ι τ RecordIndex} {rest : List (Visit σ ι τ RecordIndex)}
      (head : w.pending = v :: rest) :
      Moves M A o w (.skippedLetter v.label) (w.withPending (v.skipLetter :: rest))
  | skippedState {v : Visit σ ι τ RecordIndex} {rest : List (Visit σ ι τ RecordIndex)}
      (head : w.pending = v :: rest) :
      Moves M A o w (.skippedState v.label) (w.withPending (o.giveUp v rest))
  | refused (pending : w.pending = []) : Moves M A o w .refused w
  | modified : Moves M A o w .modified w

/-- States that were met stay where they are. -/
theorem Moves.states_prefix {M : TransitionSystem σ ι τ} {A : List ι} {o : Order}
    {w w' : View σ ι τ} {x : Report ι τ} (m : w.Moves M A o x w') : w.states <+: w'.states := by
  have same : w.states <+: w.states := List.prefix_refl _
  cases m with
  | event advance =>
    cases advance with
    | known idle unread met => exact same
    | root idle unread new => exact List.prefix_append _ _
    | start ready head fresh => exact same
    | tree ready head begun step new => exact List.prefix_append _ _
    | edge ready head begun step met =>
      rw [states_note]
      exact same
    | finish ready head begun step => exact same
  | ended unread pending => exact same
  | skippedLetter head => exact same
  | skippedState head => exact same
  | refused pending => exact same
  | modified => exact same

/-- The view of a search before its first call. -/
def begin (M : TransitionSystem σ ι τ) : View σ ι τ := ⟨M.initial, [], fun _ => .white, []⟩

/-- The history `h` can lead to the view `w`. -/
inductive Reached (M : TransitionSystem σ ι τ) (A : List ι) (o : Order) :
    List (Report ι τ) → View σ ι τ → Prop
  | begin : Reached M A o [] (begin M)
  | move {h : List (Report ι τ)} {w w' : View σ ι τ} {x : Report ι τ} (before : Reached M A o h w)
      (last : w.Moves M A o x w') : Reached M A o (h ++ [x]) w'

end View

variable {σ ι τ δ : Type} [DecidableEq σ] [Hashable σ] {M : TransitionSystem σ ι τ}
  {A : List ι} {o : Order}

/-- The record whose visit the next skip would hit. -/
def head? (s : Search M A o δ) : Option RecordIndex :=
  s.traversal.frontier.head?.map fun v => s.ownIndex v.label

theorem head?_of_nil {s : Search M A o δ} (h : s.traversal.pending = []) : s.head? = none := by
  have hf : s.traversal.frontier.toList = [] := h
  rw [head?, Frontier.head?_eq, hf]
  rfl

/-- With nothing pending a skip fails and hands back the search as it was. -/
theorem skipLetter_of_nil {s : Search M A o δ} (h : s.traversal.pending = []) :
    s.skipLetter = (.error .idle, s) := by
  rw [skipLetter, Traversal.skipLetter_of_nil h]
  rfl

theorem skipState_of_nil {s : Search M A o δ} (h : s.traversal.pending = []) :
    s.skipState = (.error .idle, s) := by
  rw [skipState, Traversal.skipState_of_nil h]
  rfl

theorem Coherent.head?_of_cons {s : Search M A o δ} (c : s.Coherent)
    {v : Visit σ ι τ RecordIndex} {rest : List (Visit σ ι τ RecordIndex)}
    (h : s.traversal.pending = v :: rest) : s.head? = some v.label := by
  have hf : s.traversal.frontier.toList = v :: rest := h
  rw [head?, Frontier.head?_eq, hf, List.head?_cons, Option.map_some, c.ownIndex_eq]

variable [Inhabited δ]

def perform (s : Search M A o δ) : Move δ → Report ι τ × Search M A o δ
  | .next =>
    match s.next with
    | (some e, u) => (.event e, u)
    | (none, u) => (.ended, u)
  | .skipLetter =>
    match s.head?, s.skipLetter with
    | some r, (.ok _, u) => (.skippedLetter r, u)
    | _, (_, u) => (.refused, u)
  | .skipState =>
    match s.head?, s.skipState with
    | some r, (.ok _, u) => (.skippedState r, u)
    | _, (_, u) => (.refused, u)
  | .modifyData r change => (.modified, s.modifyData r change)

/-- The reports of a list of moves, and the search after them. -/
def play (s : Search M A o δ) : List (Move δ) → List (Report ι τ) × Search M A o δ
  | [] => ([], s)
  | m :: ms =>
    let p := s.perform m
    let q := p.2.play ms
    (p.1 :: q.1, q.2)

theorem play_append (s : Search M A o δ) (ms ns : List (Move δ)) :
    s.play (ms ++ ns) =
      ((s.play ms).1 ++ ((s.play ms).2.play ns).1, ((s.play ms).2.play ns).2) := by
  induction ms generalizing s with
  | nil => rfl
  | cons m ms ih => simp [play, ih]

/-- A report in the middle of a history came of one call, made where the calls before it led. -/
theorem play_split {s u : Search M A o δ} {ms : List (Move δ)} {before after : List (Report ι τ)}
    {y : Report ι τ} (played : s.play ms = (before ++ y :: after, u)) :
    ∃ (first : List (Move δ)) (m : Move δ) (rest : List (Move δ)) (t : Search M A o δ),
      s.play first = (before, t) ∧ (t.perform m).1 = y ∧ (t.perform m).2.play rest = (after, u) := by
  induction before generalizing s ms with
  | nil =>
    cases ms with
    | nil => simp [play] at played
    | cons m ms =>
      obtain ⟨reports, last⟩ := Prod.mk.inj played
      obtain ⟨now, later⟩ := List.cons.inj reports
      exact ⟨[], m, ms, s, rfl, now, Prod.ext later last⟩
  | cons z before ih =>
    cases ms with
    | nil => simp [play] at played
    | cons m ms =>
      obtain ⟨reports, last⟩ := Prod.mk.inj played
      obtain ⟨now, later⟩ := List.cons.inj reports
      obtain ⟨first, m', rest, t, led, made, went⟩ := ih (Prod.ext later last)
      refine ⟨m :: first, m', rest, t, ?_, made, went⟩
      rw [play, led, now]

theorem perform_next {s u : Search M A o δ} {e : Event ι τ} (h : s.next = (some e, u)) :
    s.perform .next = (.event e, u) := by
  rw [perform, h]

/-- Every call keeps a search coherent and is one of the moves of its view. -/
theorem Coherent.perform {s : Search M A o δ} (c : s.Coherent) (m : Move δ) :
    (s.perform m).2.Coherent ∧ s.view.Moves M A o (s.perform m).1 (s.perform m).2.view := by
  cases m with
  | next =>
    cases h : s.next with
    | mk e u =>
      cases e with
      | some e =>
        rw [perform_next h]
        obtain ⟨cu, adv⟩ := c.advances h
        exact ⟨cu, .event adv⟩
      | none =>
        obtain ⟨unread, pending⟩ := next_eq_none_iff.1 (congrArg Prod.fst h)
        obtain rfl : u = s := next_of_none h
        rw [Search.perform, h]
        exact ⟨c, .ended unread pending⟩
  | skipLetter =>
    cases hp : s.traversal.pending with
    | nil =>
      rw [Search.perform, head?_of_nil hp, skipLetter_of_nil hp]
      exact ⟨c, .refused hp⟩
    | cons v rest =>
      obtain ⟨t, ht, unread, records, pending⟩ := Traversal.skipLetter_of_cons hp
      obtain ⟨ct, hv⟩ := c.turn unread records pending (c.pending_of_head hp rfl rfl)
      rw [Search.perform, c.head?_of_cons hp, skipLetter, ht]
      refine ⟨ct, ?_⟩
      change s.view.Moves M A o _ (s.withTraversal t).view
      rw [hv]
      exact .skippedLetter hp
  | skipState =>
    cases hp : s.traversal.pending with
    | nil =>
      rw [Search.perform, head?_of_nil hp, skipState_of_nil hp]
      exact ⟨c, .refused hp⟩
    | cons v rest =>
      obtain ⟨t, ht, unread, records, pending⟩ := Traversal.skipState_of_cons hp
      have sound : ∀ a ∈ o.giveUp v rest, s.states[a.label]? = some a.state := by
        cases o with
        | breadthFirst => exact c.pending_of_head hp rfl rfl
        | depthFirst => exact fun a ha => c.pending a (by simp [hp, show a ∈ rest from ha])
      obtain ⟨ct, hv⟩ := c.turn unread records pending sound
      rw [Search.perform, c.head?_of_cons hp, skipState, ht]
      refine ⟨ct, ?_⟩
      change s.view.Moves M A o _ (s.withTraversal t).view
      rw [hv]
      exact .skippedState hp
  | modifyData r change =>
    rw [Search.perform, view_modifyData]
    exact ⟨c.modifyData r change, .modified⟩

/-- Every history is reached on the view. -/
theorem Coherent.play {s : Search M A o δ} (c : s.Coherent) {h : List (Report ι τ)}
    (before : View.Reached M A o h s.view) (ms : List (Move δ)) :
    (s.play ms).2.Coherent ∧ View.Reached M A o (h ++ (s.play ms).1) (s.play ms).2.view := by
  induction ms generalizing s h with
  | nil => exact ⟨c, by simpa [Search.play] using before⟩
  | cons m ms ih =>
    obtain ⟨cm, hm⟩ := c.perform m
    have after := ih cm (before.move hm)
    rw [List.append_assoc] at after
    exact after

theorem reached_of_play {ms : List (Move δ)} {h : List (Report ι τ)} {s : Search M A o δ}
    (hp : (begin M A o δ).play ms = (h, s)) : s.Coherent ∧ View.Reached M A o h s.view := by
  have after := Coherent.play (s := begin M A o δ) .begin .begin ms
  rw [hp] at after
  exact after

end Exploration.Search
