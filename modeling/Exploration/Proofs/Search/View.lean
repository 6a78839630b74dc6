import Exploration.Search
import Exploration.Proofs.Traversal.Advance

/-!
# The view of a search

What matters of a search is four fields: the initial states not yet reported, the states met, by
record, their colors, and the pending visits, head first. `View.Advances` says which event comes
when, and what it changes, on these fields alone. A search is `Coherent` if its index, its
traversal and its numbering agree with its records; then each of its events is one of its view.
-/

namespace Exploration.Search

structure View (σ ι τ : Type) where
  unread : List σ
  /-- The states met, in the order of their records. -/
  states : List σ
  color : RecordIndex → Color
  pending : List (Visit σ ι τ RecordIndex)

namespace View

variable {σ ι τ : Type} {o : Order}

/-- The last state met has the greatest index. -/
theorem getElem?_snoc (states : List σ) (t : σ) (r : RecordIndex) :
    (states ++ [t])[r]? = if r = states.length then some t else states[r]? := by
  grind

theorem getElem?_snoc_of_some {states : List σ} {r : RecordIndex} {t : σ}
    (h : states[r]? = some t) (u : σ) : (states ++ [u])[r]? = some t := by
  have lt : r < states.length := (List.getElem?_eq_some_iff.1 h).1
  rw [List.getElem?_append_left lt]
  exact h

/-- The view after a new state was met. -/
def enter (A : List ι) (o : Order) (w : View σ ι τ) (t : σ) : View σ ι τ :=
  { w with
    states := w.states ++ [t]
    pending := o.place (.planned A w.states.length t) w.pending }

theorem length_enter (A : List ι) (o : Order) (w : View σ ι τ) (t : σ) :
    (w.enter A o t).states.length = w.states.length + 1 := by
  simp [enter]

def paint (w : View σ ι τ) (r : RecordIndex) (c : Color) : View σ ι τ :=
  { w with color := fun q => if q = r then (w.color q).advance c else w.color q }

/-- The view after an edge to a state with a record was seen. -/
def note (o : Order) (w : View σ ι τ) (r : RecordIndex) : View σ ι τ :=
  if o = .breadthFirst ∧ w.color r = .white then w.paint r .gray else w

theorem states_note (o : Order) (w : View σ ι τ) (r : RecordIndex) :
    (w.note o r).states = w.states := by
  rw [note]
  split <;> rfl

theorem unread_note (o : Order) (w : View σ ι τ) (r : RecordIndex) :
    (w.note o r).unread = w.unread := by
  rw [note]
  split <;> rfl

theorem pending_note (o : Order) (w : View σ ι τ) (r : RecordIndex) :
    (w.note o r).pending = w.pending := by
  rw [note]
  split <;> rfl

def kindOf (o : Order) (w : View σ ι τ) (source target : RecordIndex) : EdgeKind :=
  match o, w.color target with
  | _, .gray => .back
  | .breadthFirst, .white => .cross
  | .breadthFirst, .black => .back
  | .depthFirst, _ => if target < source then .cross else .forward

theorem kindOf_of_gray {w : View σ ι τ} {r : RecordIndex} (h : w.color r = .gray)
    (u : RecordIndex) : w.kindOf o u r = .back := by
  cases o <;> simp [kindOf, h]

/-- Depth-first the color counts only if it is gray. -/
theorem kindOf_depthFirst {w : View σ ι τ} {r : RecordIndex} (h : w.color r ≠ .gray)
    (u : RecordIndex) : w.kindOf .depthFirst u r = if r < u then .cross else .forward := by
  cases hc : w.color r with
  | white => simp [kindOf, hc]
  | gray => exact absurd hc h
  | black => simp [kindOf, hc]

/-- A state with a record is not discovered by an edge. -/
theorem kindOf_ne_tree (o : Order) (w : View σ ι τ) (u r : RecordIndex) :
    w.kindOf o u r ≠ .tree := by
  by_cases hg : w.color r = .gray
  · rw [kindOf_of_gray hg]
    decide
  cases o with
  | breadthFirst => cases hc : w.color r <;> simp [kindOf, hc]
  | depthFirst =>
    rw [kindOf_depthFirst hg]
    split <;> decide

def withPending (w : View σ ι τ) (pending : List (Visit σ ι τ RecordIndex)) : View σ ι τ :=
  { w with pending }

inductive Advances (M : TransitionSystem σ ι τ) (A : List ι) (o : Order) (w : View σ ι τ) :
    Event ι τ → View σ ι τ → Prop
  | known {t : σ} {rest : List σ} {r : RecordIndex} (idle : o = .breadthFirst ∨ w.pending = [])
      (unread : w.unread = t :: rest) (met : w.states[r]? = some t) :
      Advances M A o w (.initial r) { w with unread := rest }
  | root {t : σ} {rest : List σ} (idle : o = .breadthFirst ∨ w.pending = [])
      (unread : w.unread = t :: rest) (new : t ∉ w.states) :
      Advances M A o w (.initial w.states.length) ({ w with unread := rest }.enter A o t)
  | start {v : Visit σ ι τ RecordIndex} {rest : List (Visit σ ι τ RecordIndex)}
      (ready : o = .depthFirst ∨ w.unread = []) (head : w.pending = v :: rest)
      (fresh : v.started = false) :
      Advances M A o w (.start v.label) ((w.withPending (v.start :: rest)).paint v.label .gray)
  | tree {v v' : Visit σ ι τ RecordIndex} {rest : List (Visit σ ι τ RecordIndex)} {i : ι} {x : τ}
      (ready : o = .depthFirst ∨ w.unread = []) (head : w.pending = v :: rest)
      (begun : v.started = true) (step : v.next M = (some (i, x), v'))
      (new : M.successor x ∉ w.states) :
      Advances M A o w (.edge .tree v.label i x w.states.length)
        ((w.withPending (v' :: rest)).enter A o (M.successor x))
  | edge {v v' : Visit σ ι τ RecordIndex} {rest : List (Visit σ ι τ RecordIndex)} {i : ι} {x : τ}
      {r : RecordIndex} (ready : o = .depthFirst ∨ w.unread = []) (head : w.pending = v :: rest)
      (begun : v.started = true) (step : v.next M = (some (i, x), v'))
      (met : w.states[r]? = some (M.successor x)) :
      Advances M A o w (.edge (w.kindOf o v.label r) v.label i x r)
        ((w.withPending (v' :: rest)).note o r)
  | finish {v v' : Visit σ ι τ RecordIndex} {rest : List (Visit σ ι τ RecordIndex)}
      (ready : o = .depthFirst ∨ w.unread = []) (head : w.pending = v :: rest)
      (begun : v.started = true) (step : v.next M = (none, v')) :
      Advances M A o w (.finish v.label (Traversal.backtrackAlong o rest))
        ((w.withPending rest).paint v.label .black)

end View

variable {σ ι τ δ : Type} [DecidableEq σ] [Hashable σ] {M : TransitionSystem σ ι τ}
  {A : List ι} {o : Order}

def states (s : Search M A o δ) : List σ := s.records.toList.map (·.state)

def view (s : Search M A o δ) : View σ ι τ :=
  ⟨s.traversal.unread, s.states, s.color, s.traversal.pending⟩

/-- The records of the traversal, the index and the numbers of discovery are those of the states
met, the number for the next record is that of its place, and every pending visit is of the state
of its record. -/
structure Coherent (s : Search M A o δ) : Prop where
  records (r : RecordIndex) : s.traversal.records[r]? = s.states[r]?.map (⟨·, r⟩)
  find (t : σ) (r : RecordIndex) : s.find? t = some r ↔ s.states[r]? = some t
  numbered (r : RecordIndex) (h : r < s.states.length) :
    s.records[r]?.bind (·.discovery) = if o = .depthFirst then some r else none
  counted : s.nextDiscovery = if o = .depthFirst then s.states.length else 0
  pending : ∀ v ∈ s.traversal.pending, s.states[v.label]? = some v.state

theorem length_states (s : Search M A o δ) : s.states.length = s.recordCount := by
  simp [states, recordCount]

theorem getElem?_states (s : Search M A o δ) (r : RecordIndex) :
    s.states[r]? = (s.record? r).map (·.state) := by
  simp [states, record?]

/-- The state met at `r` is the state of the record `r`. -/
theorem state_record {s : Search M A o δ} {r : RecordIndex} {t : σ} (h : s.states[r]? = some t) :
    (s.record? r).map (·.state) = some t := by
  rw [← getElem?_states, h]

/-- Records may change in everything but their states. -/
theorem states_modify (s : Search M A o δ) (r : RecordIndex) {f : Record σ δ → Record σ δ}
    (state : ∀ rec, (f rec).state = rec.state) :
    (s.modify r f).states = s.states := by
  apply List.ext_getElem?
  intro q
  rw [getElem?_states, getElem?_states, record?, record?, modify, Array.getElem?_modify]
  split
  · cases s.records[q]? with
    | none => rfl
    | some rec => exact congrArg some (state rec)
  · rfl

theorem states_mark (s : Search M A o δ) (r : RecordIndex) (c : Color) :
    (s.mark r c).states = s.states :=
  s.states_modify r fun _ => rfl

theorem color_mark {s : Search M A o δ} {r : RecordIndex} (c : Color)
    (h : r < s.states.length) (q : RecordIndex) :
    (s.mark r c).color q = if q = r then (s.color q).advance c else s.color q := by
  rw [color, color, records_mark, Array.getElem?_modify]
  rw [length_states, recordCount] at h
  by_cases hq : q = r
  · subst hq
    simp [h]
  · simp [hq, Ne.symm hq]

theorem view_mark {s : Search M A o δ} {r : RecordIndex} (c : Color) (h : r < s.states.length) :
    (s.mark r c).view = s.view.paint r c := by
  have hc : (s.mark r c).color = fun q => if q = r then (s.color q).advance c else s.color q :=
    funext (color_mark c h)
  rw [view, states_mark, hc]
  rfl

theorem color_modifyData (s : Search M A o δ) (r : RecordIndex) (change : δ → δ) :
    (s.modifyData r change).color = s.color := by
  funext q
  rw [color, color, modifyData, modify, Array.getElem?_modify]
  split
  · cases s.records[q]? <;> rfl
  · rfl

/-- The data of the records are not in view. -/
theorem view_modifyData (s : Search M A o δ) (r : RecordIndex) (change : δ → δ) :
    (s.modifyData r change).view = s.view := by
  have hs : (s.modifyData r change).states = s.states := s.states_modify r fun _ => rfl
  rw [view, hs, color_modifyData]
  rfl

theorem view_note {s : Search M A o δ} {r : RecordIndex} (h : r < s.states.length) :
    (if o = .breadthFirst ∧ s.color r = .white then s.mark r .gray else s).view =
      s.view.note o r := by
  by_cases hc : o = .breadthFirst ∧ s.color r = .white
  · rw [if_pos hc, view_mark .gray h, View.note]
    exact (if_pos hc).symm
  · rw [if_neg hc, View.note]
    exact (if_neg hc).symm

theorem view_withTraversal (s : Search M A o δ) (t : Traversal M A o RecordIndex) :
    (s.withTraversal t).view = { s.view with unread := t.unread, pending := t.pending } := rfl

theorem kindBetween_ne_tree (s : Search M A o δ) (source target : RecordIndex) (c : Color) :
    s.kindBetween source target c ≠ .tree := by
  unfold kindBetween
  split
  · decide
  · decide
  · decide
  · split <;> decide

section Entering

variable [Inhabited δ]

theorem states_enter (s : Search M A o δ) (t : σ) : (s.enter t).states = s.states ++ [t] := by
  simp [states, newRecord]

theorem color_enter (s : Search M A o δ) (t : σ) : (s.enter t).color = s.color := by
  funext q
  rw [color, color, records_enter, Array.getElem?_push]
  split
  · next hq => simp [hq, newRecord]
  · rfl

theorem pending_enter (s : Search M A o δ) (t : σ) :
    (s.enter t).traversal.pending =
      o.place (.planned A s.traversal.recordCount t) s.traversal.pending := by
  rw [Traversal.pending, traversal_enter, Traversal.frontier_schedule, Frontier.toList_push]
  rfl

/-- A search has no event left when nothing is pending and every initial state was reported. -/
theorem next_eq_none_iff {s : Search M A o δ} :
    s.next.1 = none ↔ s.view.unread = [] ∧ s.view.pending = [] := by
  have ht : s.next.1 = none ↔ s.traversal.next.1 = none := by
    rw [next]
    split
    · next h => simp [h]
    · next h => simp [h]
  rw [ht, Traversal.next_eq_none_iff]
  rfl

end Entering

namespace Coherent

variable {s : Search M A o δ}

theorem begin : (Search.begin M A o δ).Coherent where
  records r := by simp [Search.begin, Traversal.begin, states]
  find t r := by simp [Search.begin, find?, states]
  numbered r h := by simp [Search.begin, states] at h
  counted := by cases o <;> rfl
  pending := by simp [Search.begin, Traversal.begin, Traversal.pending]

/-- The records of the traversal carry their own indices. -/
theorem ownIndex_eq (c : s.Coherent) (r : RecordIndex) : s.ownIndex r = r := by
  rw [ownIndex, c.records]
  cases s.states[r]? <;> rfl

/-- A step of the traversal leaves the numbers of the records as they are. -/
theorem ownIndex_withTraversal (c : s.Coherent) {t : Traversal M A o RecordIndex}
    (records : t.records = s.traversal.records) (r : RecordIndex) :
    (s.withTraversal t).ownIndex r = r := by
  rw [ownIndex, Search.withTraversal, records]
  exact c.ownIndex_eq r

theorem map_ownBacktrack (c : s.Coherent) (b : Option (Backtrack ι τ)) :
    b.map s.ownBacktrack = b := by
  have hid : s.ownBacktrack = id := by
    funext b
    rw [ownBacktrack, c.ownIndex_eq]
    rfl
  rw [hid, Option.map_id_apply]

theorem find_eq_none_iff (c : s.Coherent) {t : σ} : s.find? t = none ↔ t ∉ s.states := by
  constructor
  · intro h ht
    obtain ⟨r, hr⟩ := List.mem_iff_getElem?.1 ht
    rw [(c.find t r).2 hr] at h
    cases h
  · intro h
    cases hf : s.find? t with
    | none => rfl
    | some r => exact absurd (List.mem_of_getElem? ((c.find t r).1 hf)) h

theorem discoveredBefore_iff (c : s.Coherent) (deep : o = .depthFirst) {target source : RecordIndex}
    (ht : target < s.states.length) (hs : source < s.states.length) :
    s.discoveredBefore target source = decide (target < source) := by
  rw [discoveredBefore, c.numbered target ht, c.numbered source hs, if_pos deep, if_pos deep]

theorem kindBetween_eq (c : s.Coherent) {target source : RecordIndex}
    (ht : target < s.states.length) (hs : source < s.states.length) :
    s.kindBetween source target (s.color target) = s.view.kindOf o source target := by
  by_cases hg : s.color target = .gray
  · rw [View.kindOf_of_gray (w := s.view) hg, hg]
    cases o <;> rfl
  cases o with
  | breadthFirst =>
    have hv : s.view.color target = s.color target := rfl
    cases hc : s.color target with
    | white => simp [kindBetween, View.kindOf, hv, hc]
    | gray => exact absurd hc hg
    | black => simp [kindBetween, View.kindOf, hv, hc]
  | depthFirst =>
    rw [View.kindOf_depthFirst (w := s.view) hg]
    cases hc : s.color target with
    | white => simp [kindBetween, c.discoveredBefore_iff rfl ht hs]
    | gray => exact absurd hc hg
    | black => simp [kindBetween, c.discoveredBefore_iff rfl ht hs]

theorem withTraversal (c : s.Coherent) {t : Traversal M A o RecordIndex}
    (records : t.records = s.traversal.records)
    (pending : ∀ v ∈ t.pending, s.states[v.label]? = some v.state) :
    (s.withTraversal t).Coherent where
  records r := by
    change t.records[r]? = _
    rw [records]
    exact c.records r
  find := c.find
  numbered := c.numbered
  counted := c.counted
  pending := pending

/-- A step of the traversal that leaves the initial states and the records alone. -/
theorem turn (c : s.Coherent) {t : Traversal M A o RecordIndex}
    {vs : List (Visit σ ι τ RecordIndex)} (unread : t.unread = s.traversal.unread)
    (records : t.records = s.traversal.records) (pending : t.pending = vs)
    (sound : ∀ v ∈ vs, s.states[v.label]? = some v.state) :
    (s.withTraversal t).Coherent ∧ (s.withTraversal t).view = s.view.withPending vs := by
  refine ⟨c.withTraversal records (by rwa [pending]), ?_⟩
  rw [view_withTraversal, unread, pending]
  rfl

theorem modify (c : s.Coherent) (r : RecordIndex) {f : Record σ δ → Record σ δ}
    (state : ∀ rec, (f rec).state = rec.state)
    (discovery : ∀ rec, (f rec).discovery = rec.discovery) :
    (s.modify r f).Coherent where
  records q := by
    rw [states_modify s r state]
    exact c.records q
  find t q := by
    rw [states_modify s r state]
    exact c.find t q
  numbered q h := by
    rw [states_modify s r state] at h
    rw [← c.numbered q h, Search.modify, Array.getElem?_modify]
    split
    · cases s.records[q]? with
      | none => rfl
      | some rec => exact discovery rec
    · rfl
  counted := by
    rw [states_modify s r state]
    exact c.counted
  pending := by
    rw [states_modify s r state]
    exact c.pending

theorem mark (c : s.Coherent) (r : RecordIndex) (col : Color) : (s.mark r col).Coherent :=
  c.modify r (fun _ => rfl) (fun _ => rfl)

theorem modifyData (c : s.Coherent) (r : RecordIndex) (change : δ → δ) :
    (s.modifyData r change).Coherent :=
  c.modify r (fun _ => rfl) (fun _ => rfl)

theorem note (c : s.Coherent) (r : RecordIndex) :
    (if o = .breadthFirst ∧ s.color r = .white then s.mark r .gray else s).Coherent := by
  split
  · exact c.mark r .gray
  · exact c

theorem size_records (c : s.Coherent) : s.traversal.records.size = s.states.length := by
  apply Nat.le_antisymm
  · apply Array.getElem?_eq_none_iff.1
    rw [c.records, List.getElem?_eq_none (Nat.le_refl _)]
    rfl
  · apply List.getElem?_eq_none_iff.1
    have h := c.records s.traversal.records.size
    rw [Array.getElem?_eq_none (Nat.le_refl _)] at h
    exact Option.map_eq_none_iff.1 h.symm

theorem lt_of_states {r : RecordIndex} {t : σ} (h : s.states[r]? = some t) :
    r < s.states.length :=
  (List.getElem?_eq_some_iff.1 h).1

/-- The number taken for a new record is that of its place. -/
theorem takeNumber_fst (c : s.Coherent) :
    (takeNumber o s.nextDiscovery).1 = if o = .depthFirst then some s.recordCount else none := by
  rw [c.counted, ← length_states]
  cases o <;> rfl

theorem takeNumber_snd (c : s.Coherent) :
    (takeNumber o s.nextDiscovery).2 = if o = .depthFirst then s.states.length + 1 else 0 := by
  rw [c.counted]
  cases o <;> rfl

theorem enter [Inhabited δ] (c : s.Coherent) {t : σ} (new : t ∉ s.states) :
    (s.enter t).Coherent where
  records q := by
    rw [states_enter, traversal_enter, Traversal.records_schedule, Array.getElem?_push,
      c.size_records, ← length_states, View.getElem?_snoc]
    split
    · next hq => rw [hq]; rfl
    · exact c.records q
  find u q := by
    rw [states_enter, find?_enter, View.getElem?_snoc, length_states]
    by_cases hu : t = u
    · subst hu
      rw [if_pos rfl]
      split
      · next hq => simp [hq]
      · next hq =>
        constructor
        · intro h
          exact absurd (Option.some.inj h).symm hq
        · intro h
          exact absurd (List.mem_of_getElem? h) new
    · rw [if_neg hu, c.find u q]
      split
      · next hq => simp [hq, hu, ← length_states]
      · rfl
  numbered q h := by
    rw [records_enter, Array.getElem?_push]
    split
    · next hq =>
      rw [hq]
      exact c.takeNumber_fst
    · next hq =>
      rw [states_enter, List.length_append, length_states] at h
      apply c.numbered q
      rw [length_states]
      exact Nat.lt_of_le_of_ne (Nat.le_of_lt_succ h) hq
  counted := by
    rw [nextDiscovery_enter, states_enter, List.length_append]
    exact c.takeNumber_snd
  pending v hv := by
    rw [states_enter, View.getElem?_snoc]
    rw [pending_enter] at hv
    rcases Order.mem_place.1 hv with rfl | hv
    · rw [if_pos]
      · rfl
      · exact c.size_records
    · have h := c.pending v hv
      rw [if_neg (Nat.ne_of_lt (lt_of_states h))]
      exact h

theorem view_enter [Inhabited δ] (c : s.Coherent) (t : σ) :
    (s.enter t).view = s.view.enter A o t := by
  have hr : s.traversal.recordCount = s.states.length := c.size_records
  rw [view, states_enter, color_enter, pending_enter, hr]
  rfl

variable {t : Traversal M A o RecordIndex}

/-- A visit that goes on is still of the state of its record. -/
theorem pending_of_head (c : s.Coherent) {v w : Visit σ ι τ RecordIndex}
    {rest : List (Visit σ ι τ RecordIndex)} (head : s.traversal.pending = v :: rest)
    (label : w.label = v.label) (state : w.state = v.state) :
    ∀ a ∈ w :: rest, s.states[a.label]? = some a.state := by
  intro a ha
  rcases List.mem_cons.1 ha with rfl | ha
  · rw [label, state]
    exact c.pending v (by simp [head])
  · exact c.pending a (by simp [head, ha])

/-- What a search makes of an event of its traversal is an event of its view. -/
theorem observe [Inhabited δ] (c : s.Coherent) {f : Exploration.Event σ ι τ} {e : Event ι τ}
    {u : Search M A o δ} (adv : s.traversal.Advances f t)
    (h : (s.withTraversal t).observe f = (e, u)) :
    u.Coherent ∧ s.view.Advances M A o e u.view := by
  cases adv with
  | @initial st _ idle unread records pending =>
    have ct : (s.withTraversal t).Coherent :=
      c.withTraversal records (by rw [pending]; exact c.pending)
    have hv : (s.withTraversal t).view = { s.view with unread := t.unread } := by
      rw [view_withTraversal, pending]
      rfl
    rw [Search.observe] at h
    split at h
    · next r hr =>
      obtain ⟨rfl, rfl⟩ := Prod.mk.inj h
      refine ⟨ct, ?_⟩
      rw [hv]
      exact .known idle unread ((c.find st r).1 hr)
    · next hr =>
      obtain ⟨rfl, rfl⟩ := Prod.mk.inj h
      have new : st ∉ s.states := c.find_eq_none_iff.1 hr
      refine ⟨ct.enter new, ?_⟩
      rw [ct.view_enter, hv, ← length_states]
      exact .root idle unread new
  | @start v rest _ ready head fresh unread records pending =>
    have sound := c.pending_of_head head (w := v.start) rfl rfl
    obtain ⟨ct, hv⟩ := c.turn unread records pending sound
    have hl : v.label < (s.withTraversal t).states.length :=
      lt_of_states (sound v.start List.mem_cons_self)
    rw [Search.observe, ct.ownIndex_eq] at h
    obtain ⟨rfl, rfl⟩ := Prod.mk.inj h
    refine ⟨ct.mark _ _, ?_⟩
    rw [view_mark _ hl, hv]
    exact .start ready head fresh
  | @edge v w rest p _ ready head begun step unread records pending =>
    obtain ⟨-, label, state, -⟩ := Visit.next_of_some step
    have sound := c.pending_of_head head label state
    obtain ⟨ct, hv⟩ := c.turn unread records pending sound
    rw [Search.observe, ct.ownIndex_eq, edgeTo] at h
    split at h
    · next hr =>
      obtain ⟨rfl, rfl⟩ := Prod.mk.inj h
      have new : M.successor p.2 ∉ s.states := c.find_eq_none_iff.1 hr
      refine ⟨ct.enter new, ?_⟩
      rw [ct.view_enter, hv, ← length_states]
      exact .tree ready head begun step new
    · next r hr =>
      obtain ⟨rfl, rfl⟩ := Prod.mk.inj h
      have met : s.states[r]? = some (M.successor p.2) := (c.find _ r).1 hr
      have hr : r < (s.withTraversal t).states.length := lt_of_states met
      have hl : v.label < (s.withTraversal t).states.length :=
        lt_of_states (c.pending v (by simp [head]))
      refine ⟨ct.note r, ?_⟩
      rw [view_note hr, ct.kindBetween_eq hr hl, hv]
      exact .edge ready head begun step met
  | @finish v w rest _ ready head begun step unread records pending =>
    have sound : ∀ a ∈ rest, s.states[a.label]? = some a.state :=
      fun a ha => c.pending a (by simp [head, ha])
    obtain ⟨ct, hv⟩ := c.turn unread records pending sound
    have hl : v.label < (s.withTraversal t).states.length :=
      lt_of_states (c.pending v (by simp [head]))
    rw [Search.observe, ct.ownIndex_eq, ct.map_ownBacktrack] at h
    obtain ⟨rfl, rfl⟩ := Prod.mk.inj h
    refine ⟨ct.mark _ _, ?_⟩
    rw [view_mark _ hl, hv]
    exact .finish ready head begun step

theorem advances [Inhabited δ] (c : s.Coherent) {e : Event ι τ} {u : Search M A o δ}
    (h : s.next = (some e, u)) : u.Coherent ∧ s.view.Advances M A o e u.view := by
  rw [next] at h
  split at h
  · cases h
  · next f t hf =>
    obtain ⟨he, hu⟩ := Prod.mk.inj h
    exact c.observe (Traversal.advances_of_next hf) (Prod.ext (Option.some.inj he) hu)

end Coherent

end Exploration.Search
