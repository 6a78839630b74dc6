import Exploration.Proofs.Search.Run

/-!
# What a search knows

After any calls the records of a search are the states that its events have reported, each once,
numbered in the order in which they came up first. The index, the numbers of discovery and the
records of the traversal underneath agree with them, and every number that the search holds or has
reported is one of a record. `next?` is the next event with every look-up in the records made
fallible; no look-up ever fails.
-/

namespace Exploration

namespace Traversal

variable {σ ι τ δ : Type} {M : TransitionSystem σ ι τ} {A : List ι} {o : Order}

/-- The next event, with the state of the head looked up in the records. -/
def next? (t : Traversal M A o δ) : Option (Option (Event σ ι τ) × Traversal M A o δ) :=
  if (o = .breadthFirst ∨ t.frontier.isEmpty) ∧ t.unread ≠ [] then
    some t.next
  else
    match t.frontier.pop? with
    | none => some (none, t)
    | some (v, rest) => do
      let kept ← t.record? v.label
      some (resume ⟨t.unread, t.records, rest.pushFront { v with state := kept.state }⟩)

/-- Unless an initial state is due, the next event is one of the head. -/
theorem next_eq_resume {t : Traversal M A o δ}
    (h : ¬ ((o = .breadthFirst ∨ t.frontier.isEmpty) ∧ t.unread ≠ [])) : t.next = t.resume := by
  rw [next]
  split
  · next idle =>
    have unread : t.unread = [] := Decidable.not_not.1 fun more => h ⟨idle, more⟩
    rw [unread]
  · rfl

theorem next?_eq {t : Traversal M A o δ}
    (kept : ∀ v ∈ t.pending, (t.record? v.label).map (·.state) = some v.state) :
    t.next? = some t.next := by
  rw [next?]
  split
  · rfl
  · next busy =>
    rw [next_eq_resume busy, resume]
    cases hp : t.frontier.pop? with
    | none => rfl
    | some p =>
      have head : t.pending = p.1 :: p.2.toList := Frontier.toList_of_pop?_eq_some hp
      obtain ⟨rec, hr, state⟩ := Option.map_eq_some_iff.1 (kept p.1 (head ▸ List.mem_cons_self))
      dsimp only [Option.bind_eq_bind]
      rw [hr, Option.bind_some, state]
      rfl

end Traversal

namespace Search

section Events

variable {ι τ : Type}

/-- The record whose state an event offers. -/
def Event.target? : Event ι τ → Option RecordIndex
  | .initial r => some r
  | .edge _ _ _ _ v => some v
  | .start _ => none
  | .finish _ _ => none

/-- The records an event names. -/
def Event.handles : Event ι τ → List RecordIndex
  | .initial r => [r]
  | .start r => [r]
  | .edge _ u _ _ v => [u, v]
  | .finish r b => r :: b.toList.map Backtrack.parent

end Events

variable {σ ι τ : Type} {M : TransitionSystem σ ι τ} {A : List ι} {o : Order}

/-- The states that events report: the initial states in turn, and where the transitions lead. -/
def reported (M : TransitionSystem σ ι τ) : List σ → List (Event ι τ) → List σ
  | _, [] => []
  | unread, .initial _ :: evs => unread.head?.toList ++ reported M unread.tail evs
  | unread, .edge _ _ _ x _ :: evs => M.successor x :: reported M unread evs
  | unread, .start _ :: evs => reported M unread evs
  | unread, .finish _ _ :: evs => reported M unread evs

theorem reported_append (unread : List σ) (evs more : List (Event ι τ)) :
    reported M unread (evs ++ more) =
      reported M unread evs ++ reported M (unread.drop (rootCount evs)) more := by
  induction evs generalizing unread with
  | nil => rfl
  | cons e evs ih =>
    cases e with
    | initial r =>
      rw [List.cons_append, reported, reported, ih, List.append_assoc, List.drop_tail]
      rfl
    | start r => exact ih unread
    | edge k u i x v => exact congrArg (M.successor x :: ·) (ih unread)
    | finish r b => exact ih unread

omit M in
/-- A finished visit leads back to one that is pending. -/
theorem parent_backtrackAlong {rest : List (Visit σ ι τ RecordIndex)} {b : Backtrack ι τ}
    (back : Traversal.backtrackAlong o rest = some b) : b.parent ∈ rest.map Visit.label := by
  cases o with
  | breadthFirst => cases back
  | depthFirst =>
    cases rest with
    | nil => cases back
    | cons a rest =>
      obtain ⟨p, -, rfl⟩ := Option.map_eq_some_iff.1 back
      exact List.mem_cons_self

variable [DecidableEq σ]

/-- The states reported in a history, each at its first place. -/
def seen (M : TransitionSystem σ ι τ) (h : List (Report ι τ)) : List σ :=
  (reported M M.initial (events h)).eraseDups

/-- The initial states left and the states met are those that the events leave and report. -/
structure Tallied (M : TransitionSystem σ ι τ) (evs : List (Event ι τ)) (unread states : List σ) :
    Prop where
  left : unread = M.initial.drop (rootCount evs)
  met : states = (reported M M.initial evs).eraseDups
  named : List.Forall₂ (fun (r : RecordIndex) t => states[r]? = some t)
    (evs.filterMap Event.target?) (reported M M.initial evs)
  handles : ∀ e ∈ evs, ∀ r ∈ e.handles, r < states.length

namespace Tallied

variable {evs : List (Event ι τ)} {e : Event ι τ} {unread states states' : List σ} {t : σ}
  {r : RecordIndex}

theorem begin : Tallied M ([] : List (Event ι τ)) M.initial [] where
  left := rfl
  met := rfl
  named := .nil
  handles := by simp

theorem left_snoc (k : Tallied M evs unread states) (e : Event ι τ) :
    unread.drop (rootCount [e]) = M.initial.drop (rootCount (evs ++ [e])) := by
  rw [k.left, List.drop_drop, rootCount, rootCount, rootCount, List.filterMap_append,
    List.length_append]

theorem reported_snoc (k : Tallied M evs unread states) (e : Event ι τ) :
    reported M M.initial (evs ++ [e]) = reported M M.initial evs ++ reported M unread [e] := by
  rw [reported_append, ← k.left]

theorem mem_reported (k : Tallied M evs unread states) :
    t ∈ reported M M.initial evs ↔ t ∈ states := by
  rw [k.met, List.mem_eraseDups]

theorem handles_snoc (k : Tallied M evs unread states) (grown : states <+: states')
    (handles : ∀ r ∈ e.handles, r < states'.length) :
    ∀ e' ∈ evs ++ [e], ∀ r ∈ e'.handles, r < states'.length := by
  intro e' he r hr
  rcases List.mem_append.1 he with old | last
  · exact Nat.lt_of_lt_of_le (k.handles e' old r hr) grown.length_le
  · rw [List.mem_singleton.1 last] at hr
    exact handles r hr

/-- An event that offers nothing. -/
theorem quiet (k : Tallied M evs unread states) (silent : reported M unread [e] = [])
    (target : e.target? = none) (handles : ∀ r ∈ e.handles, r < states.length) :
    Tallied M (evs ++ [e]) (unread.drop (rootCount [e])) states where
  left := k.left_snoc e
  met := by rw [k.reported_snoc, silent, List.append_nil, ← k.met]
  named := by
    rw [k.reported_snoc, silent, List.append_nil, List.filterMap_append,
      List.filterMap_cons_none target, List.filterMap_nil, List.append_nil]
    exact k.named
  handles := k.handles_snoc (List.prefix_refl states) handles

/-- An event that offers `t` and names its record: a state enters if it is new. -/
theorem offer (k : Tallied M evs unread states) (offers : reported M unread [e] = [t])
    (target : e.target? = some r) (grown : states' = if t ∈ states then states else states ++ [t])
    (named : states'[r]? = some t) (handles : ∀ r ∈ e.handles, r < states'.length) :
    Tallied M (evs ++ [e]) (unread.drop (rootCount [e])) states' := by
  have kept : states <+: states' := by
    rw [grown]
    split
    · exact List.prefix_refl states
    · exact List.prefix_append states [t]
  constructor
  case left => exact k.left_snoc e
  case met =>
    -- The last place of a list counts for `eraseDups` only if its element is new.
    rw [k.reported_snoc, offers, List.eraseDups_append, ← k.met, grown]
    by_cases old : t ∈ states
    · simp [old, List.removeAll, k.mem_reported]
    · simp [old, List.removeAll, k.mem_reported, List.eraseDups_cons]
  case named =>
    rw [k.reported_snoc, offers, List.filterMap_append, List.filterMap_cons_some target,
      List.filterMap_nil]
    refine List.rel_append (k.named.imp fun r t h => ?_) (.cons named .nil)
    obtain ⟨lt, rfl⟩ := List.getElem?_eq_some_iff.1 h
    exact List.prefix_iff_getElem?.1 kept r lt
  case handles => exact k.handles_snoc kept handles

end Tallied

/-- An event of the view is tallied, as long as the pending visits are of states met. -/
theorem Tallied.event {evs : List (Event ι τ)} {e : Event ι τ} {w w' : View σ ι τ}
    (k : Tallied M evs w.unread w.states) (adv : w.Advances M A o e w')
    (pending : ∀ v ∈ w.pending, w.states[v.label]? = some v.state) :
    Tallied M (evs ++ [e]) w'.unread w'.states := by
  have lt {r : RecordIndex} {t : σ} (h : w.states[r]? = some t) : r < w.states.length :=
    (List.getElem?_eq_some_iff.1 h).1
  have next (t : σ) : (w.states ++ [t])[w.states.length]? = some t := by simp
  have grows (t : σ) : w.states.length < (w.states ++ [t]).length := by simp
  cases adv with
  | @known t rest r idle unread met =>
    have after := k.offer (e := .initial r) (r := r) (by rw [unread]; rfl) rfl
      (if_pos (List.mem_of_getElem? met)).symm met (List.forall_mem_singleton.2 (lt met))
    rw [unread] at after
    exact after
  | @root t rest idle unread new =>
    have after := k.offer (e := .initial w.states.length) (by rw [unread]; rfl) rfl
      (if_neg new).symm (next t) (List.forall_mem_singleton.2 (grows t))
    rw [unread] at after
    exact after
  | @start v rest ready head fresh =>
    have named := lt (pending v (head ▸ List.mem_cons_self))
    exact k.quiet (e := .start v.label) rfl rfl (List.forall_mem_singleton.2 named)
  | @tree v v' rest i x ready head begun step new =>
    have named := lt (pending v (head ▸ List.mem_cons_self))
    exact k.offer (e := .edge .tree v.label i x w.states.length) rfl rfl (if_neg new).symm
      (next (M.successor x))
      (List.forall_mem_cons.2
        ⟨Nat.lt_trans named (grows _), List.forall_mem_singleton.2 (grows _)⟩)
  | @edge v v' rest i x r ready head begun step met =>
    have named := lt (pending v (head ▸ List.mem_cons_self))
    rw [View.states_note, View.unread_note]
    exact k.offer (e := .edge (w.kindOf o v.label r) v.label i x r) rfl rfl
      (if_pos (List.mem_of_getElem? met)).symm met
      (List.forall_mem_cons.2 ⟨named, List.forall_mem_singleton.2 (lt met)⟩)
  | @finish v v' rest ready head begun step =>
    refine k.quiet (e := .finish v.label (Traversal.backtrackAlong o rest)) rfl rfl
      (List.forall_mem_cons.2 ⟨lt (pending v (head ▸ List.mem_cons_self)), fun r hr => ?_⟩)
    obtain ⟨b, back, rfl⟩ := List.mem_map.1 hr
    obtain ⟨a, ha, label⟩ := List.mem_map.1 (parent_backtrackAlong (Option.mem_toList.1 back))
    rw [← label]
    exact lt (pending a (head ▸ List.mem_cons_of_mem v ha))

/-- A call that gives no event leaves the tally as it is. -/
theorem Tallied.moves {h : List (Report ι τ)} {x : Report ι τ} {w w' : View σ ι τ}
    (k : Tallied M (events h) w.unread w.states) (m : w.Moves M A o x w')
    (pending : ∀ v ∈ w.pending, w.states[v.label]? = some v.state) :
    Tallied M (events (h ++ [x])) w'.unread w'.states := by
  rw [events_snoc]
  have same : Tallied M (events h ++ []) w.unread w.states := by
    rw [List.append_nil]
    exact k
  cases m with
  | event adv => exact k.event adv pending
  | ended => exact same
  | skippedLetter head => exact same
  | skippedState head => exact same
  | refused => exact same
  | modified => exact same

section Lookups

variable {δ : Type} [Hashable σ]

/-- The search's record of a record of the traversal. -/
def resolve? (s : Search M A o δ) (r : RecordIndex) : Option RecordIndex :=
  (s.traversal.record? r).map (·.data)

def resolveBacktrack? (s : Search M A o δ) :
    Option (Backtrack ι τ) → Option (Option (Backtrack ι τ))
  | none => some none
  | some b => (s.resolve? b.parent).map fun parent => some ⟨parent, b.letter, b.transition⟩

/-- `observe`, with the records of the event, of the source and of the target looked up. -/
def observed? [Inhabited δ] (s : Search M A o δ) :
    Exploration.Event σ ι τ → Option (Event ι τ × Search M A o δ)
  | .initial state => some (s.observe (.initial state))
  | .start r _ => do
    let v ← s.resolve? r
    let _ ← s.record? v
    some (.start v, s.mark v .gray)
  | .edge r i x target => do
    let u ← s.resolve? r
    let _ ← s.record? u
    match s.find? target with
    | none => some (.edge .tree u i x s.recordCount, s.enter target)
    | some v =>
      let kept ← s.record? v
      some (.edge (s.kindBetween u v kept.color) u i x v,
        if o = .breadthFirst ∧ kept.color = .white then s.mark v .gray else s)
  | .finish r _ b => do
    let v ← s.resolve? r
    let _ ← s.record? v
    let c ← s.resolveBacktrack? b
    some (.finish v c, s.mark v .black)

/-- `next`, with every look-up of a record made fallible. -/
def next? [Inhabited δ] (s : Search M A o δ) : Option (Option (Event ι τ) × Search M A o δ) := do
  let p ← s.traversal.next?
  match p.1 with
  | none => some (none, s.withTraversal p.2)
  | some f =>
    let q ← (s.withTraversal p.2).observed? f
    some (some q.1, q.2)

variable {s : Search M A o δ}

theorem color_of_record? {r : RecordIndex} {rec : Record σ δ} (h : s.record? r = some rec) :
    s.color r = rec.color := by
  rw [record?] at h
  rw [color, h]
  rfl

namespace Coherent

theorem resolve?_eq (c : s.Coherent) {r : RecordIndex} {t : σ} (h : s.states[r]? = some t) :
    s.resolve? r = some r := by
  rw [resolve?, Traversal.record?, c.records, h]
  rfl

/-- The visit that a finished one leads back to is pending. -/
theorem resolveBacktrack?_eq (c : s.Coherent) {rest : List (Visit σ ι τ RecordIndex)}
    (met : ∀ a ∈ rest, s.states[a.label]? = some a.state) :
    s.resolveBacktrack? (Traversal.backtrackAlong o rest) =
      some ((Traversal.backtrackAlong o rest).map s.ownBacktrack) := by
  rw [c.map_ownBacktrack]
  cases back : Traversal.backtrackAlong o rest with
  | none => rfl
  | some b =>
    obtain ⟨a, ha, label⟩ := List.mem_map.1 (parent_backtrackAlong back)
    rw [resolveBacktrack?, ← label, c.resolve?_eq (met a ha), label]
    rfl

/-- The record of the head can be looked up at the next stage of the traversal, too. -/
theorem lookup_head (c : s.Coherent) {t : Traversal M A o RecordIndex}
    (ct : (s.withTraversal t).Coherent) {v : Visit σ ι τ RecordIndex}
    {rest : List (Visit σ ι τ RecordIndex)} (head : s.traversal.pending = v :: rest) :
    (s.withTraversal t).resolve? v.label = some v.label ∧
      ∃ rec, (s.withTraversal t).record? v.label = some rec := by
  have met : (s.withTraversal t).states[v.label]? = some v.state :=
    c.pending v (head ▸ List.mem_cons_self)
  obtain ⟨rec, kept, -⟩ := Option.map_eq_some_iff.1 (state_record met)
  exact ⟨ct.resolve?_eq met, rec, kept⟩

variable [Inhabited δ]

/-- No look-up made for an event of the traversal fails. -/
theorem observed?_eq (c : s.Coherent) {f : Exploration.Event σ ι τ}
    {t : Traversal M A o RecordIndex} (adv : s.traversal.Advances f t) :
    (s.withTraversal t).observed? f = some ((s.withTraversal t).observe f) := by
  cases adv with
  | initial idle unread records pending => rfl
  | @start v rest _ ready head fresh unread records pending =>
    obtain ⟨ct, -⟩ := c.turn unread records pending (c.pending_of_head head rfl rfl)
    obtain ⟨resolved, rec, kept⟩ := c.lookup_head ct head
    simp [observed?, Search.observe, resolved, ct.ownIndex_eq, kept]
  | @edge v v' rest p _ ready head begun step unread records pending =>
    obtain ⟨-, label, state, -⟩ := Visit.next_of_some step
    obtain ⟨ct, -⟩ := c.turn unread records pending (c.pending_of_head head label state)
    obtain ⟨resolved, rec, kept⟩ := c.lookup_head ct head
    rw [Search.observe, ct.ownIndex_eq, edgeTo]
    cases known : (s.withTraversal t).find? (M.successor p.2) with
    | none => simp [observed?, resolved, kept, known]
    | some r =>
      obtain ⟨target, hr, -⟩ := Option.map_eq_some_iff.1 (state_record ((ct.find _ r).1 known))
      simp [observed?, resolved, kept, known, hr, color_of_record? hr]
  | @finish v v' rest _ ready head begun step unread records pending =>
    have met : ∀ a ∈ rest, s.states[a.label]? = some a.state :=
      fun a ha => c.pending a (head ▸ List.mem_cons_of_mem v ha)
    obtain ⟨ct, -⟩ := c.turn unread records pending met
    obtain ⟨resolved, rec, kept⟩ := c.lookup_head ct head
    simp [observed?, Search.observe, resolved, ct.ownIndex_eq, kept, ct.resolveBacktrack?_eq met]

/-- No look-up made for the next event fails. -/
theorem next?_eq (c : s.Coherent) : s.next? = some s.next := by
  have kept : ∀ v ∈ s.traversal.pending,
      (s.traversal.record? v.label).map (·.state) = some v.state := by
    intro v hv
    rw [Traversal.record?, c.records, c.pending v hv]
    rfl
  rw [next?, Traversal.next?_eq kept, next]
  cases hs : s.traversal.next with
  | mk f t =>
    cases f with
    | none => rfl
    | some f => simp [c.observed?_eq (Traversal.advances_of_next hs)]

end Coherent

/-- Everything a search keeps, after the history `h`: record `r` is that of the state seen in
place `r`, the index gives the place of a state, depth-first the counter is at the next place, and
all numbers are of records. -/
structure Represents (h : List (Report ι τ)) (s : Search M A o δ) : Prop where
  states (r : RecordIndex) : (s.record? r).map (·.state) = (seen M h)[r]?
  find (t : σ) : s.find? t = (seen M h).idxOf? t
  discovery (r : RecordIndex) : ∀ rec ∈ s.record? r,
    rec.discovery = if o = .depthFirst then some r else none
  counter : s.nextDiscovery = if o = .depthFirst then s.recordCount else 0
  count : s.traversal.recordCount = s.recordCount
  underneath (r : RecordIndex) :
    s.traversal.record? r = (s.record? r).map fun rec => ⟨rec.state, r⟩
  frontier : ∀ v ∈ s.traversal.frontier.toList, (s.record? v.label).map (·.state) = some v.state
  named : List.Forall₂ (fun r t => s.find? t = some r) ((events h).filterMap Event.target?)
    (reported M M.initial (events h))
  handles : ∀ e ∈ events h, ∀ r ∈ e.handles, r < s.recordCount

theorem Coherent.represents {h : List (Report ι τ)} (c : s.Coherent)
    (k : Tallied M (events h) s.view.unread s.view.states) : s.Represents h := by
  have met : s.states = seen M h := k.met
  constructor
  case states =>
    intro r
    rw [← met, getElem?_states]
  case find =>
    intro t
    cases place : (seen M h).idxOf? t with
    | none =>
      rw [c.find_eq_none_iff, met]
      exact List.idxOf?_eq_none_iff.1 place
    | some r =>
      obtain ⟨lt, here, -⟩ := List.idxOf?_eq_some_iff.1 place
      rw [c.find, met, List.getElem?_eq_some_iff]
      exact ⟨lt, here⟩
  case discovery =>
    intro r rec kept
    have lt : r < s.states.length := by
      rw [length_states]
      exact (Array.getElem?_eq_some_iff.1 kept).1
    have numbered := c.numbered r lt
    rw [show s.records[r]? = some rec from kept] at numbered
    exact numbered
  case counter =>
    rw [← length_states]
    exact c.counted
  case count => exact c.size_records.trans s.length_states
  case underneath =>
    intro r
    rw [Traversal.record?, c.records, getElem?_states, Option.map_map]
    rfl
  case frontier =>
    intro v hv
    rw [← getElem?_states]
    exact c.pending v hv
  case named => exact k.named.imp fun r t here => (c.find t r).2 here
  case handles =>
    intro e he r hr
    rw [← length_states]
    exact k.handles e he r hr

theorem Coherent.play_tallied [Inhabited δ] {h : List (Report ι τ)} (c : s.Coherent)
    (k : Tallied M (events h) s.view.unread s.view.states) (ms : List (Move δ)) :
    (s.play ms).2.Coherent ∧ Tallied M (events (h ++ (s.play ms).1)) (s.play ms).2.view.unread
      (s.play ms).2.view.states := by
  induction ms generalizing s h with
  | nil => exact ⟨c, by simpa [Search.play] using k⟩
  | cons m ms ih =>
    obtain ⟨cm, moved⟩ := c.perform m
    have after := ih cm (k.moves moved c.pending)
    rw [List.append_assoc] at after
    exact after

/-- After any calls a search keeps the states reported so far, in the order of their first
appearance, and the next event looks up nothing that is missing. -/
theorem represents_play [Inhabited δ] (ms : List (Move δ)) :
    let p := (begin M A o δ).play ms
    p.2.Represents p.1 ∧ p.2.next? = some p.2.next := by
  obtain ⟨c, k⟩ := Coherent.play_tallied (h := []) (.begin (M := M) (A := A) (o := o)) .begin ms
  exact ⟨c.represents k, c.next?_eq⟩

end Lookups

end Search

end Exploration
