import Mathlib.Data.List.Nodup
import Mathlib.Data.List.Pairwise
import Exploration.Proofs.Search.EdgeKind
import Exploration.Proofs.Search.Exhaustive
import Exploration.Proofs.Search.Run

/-!
# The order of finishes

The records that are still on the stack of a depth-first search will finish from the head down,
so the finishes so far and the stack together foretell the order of all finishes. A new record
enters this order in front of the stack, hence in front of the source of its tree edge, and
nothing in it ever changes its place. An edge that is not a back edge leads to a record that comes
before its source; without back edges the order, read from its end, sorts the reachable states
topologically.
-/

namespace Exploration

namespace TransitionSystem

variable {σ ι τ : Type}

/-- The list holds the reachable states, each once and before its successors. -/
structure TopologicalOrder (M : TransitionSystem σ ι τ) (A : List ι) (ts : List σ) : Prop where
  nodup : ts.Nodup
  mem_iff : ∀ t, t ∈ ts ↔ M.Reachable A t
  sorted : ∀ t ∈ ts, ∀ i ∈ A, ∀ x ∈ M.transitions t i, [t, M.successor x].Sublist ts

theorem idxOf_lt_of_sublist {α : Type} [DecidableEq α] {l : List α} (nodup : l.Nodup) {a b : α}
    (h : [a, b].Sublist l) : l.idxOf a < l.idxOf b := by
  have increasing : l.Pairwise fun a b => l.idxOf a < l.idxOf b := by
    rw [List.pairwise_iff_getElem]
    intro i j hi hj lt
    rw [nodup.idxOf_getElem i hi, nodup.idxOf_getElem j hj]
    exact lt
  exact List.pairwise_iff_forall_sublist.1 increasing h

variable {M : TransitionSystem σ ι τ} {A : List ι}

/-- A path leads down a topological order by at least its length. -/
theorem TopologicalOrder.idxOf_add_length_le [DecidableEq σ] {ts : List σ}
    (order : M.TopologicalOrder A ts) {t u : σ} {w : List ι} (ht : M.Reachable A t)
    (path : M.Path A t w u) : M.Reachable A u ∧ ts.idxOf t + w.length ≤ ts.idxOf u := by
  induction path with
  | nil => exact ⟨ht, le_rfl⟩
  | @snoc w u i x _ hi hx ih =>
    obtain ⟨hu, le⟩ := ih
    have lt := idxOf_lt_of_sublist order.nodup (order.sorted u ((order.mem_iff u).2 hu) i hi x hx)
    refine ⟨hu.successor hi hx, ?_⟩
    rw [List.length_append, List.length_singleton]
    omega

/-- What can be sorted topologically has no cycle. -/
theorem TopologicalOrder.acyclic [DecidableEq σ] {ts : List σ} (order : M.TopologicalOrder A ts)
    {t : σ} {w : List ι} (ht : M.Reachable A t) (path : M.Path A t w t) : w = [] := by
  have down := (order.idxOf_add_length_le ht path).2
  apply List.length_eq_zero_iff.1
  omega

end TransitionSystem

namespace Search

variable {σ ι τ : Type}

/-- The record a finish is reported of. -/
def Event.finished? : Event ι τ → Option RecordIndex
  | .finish r _ => some r
  | .initial _ => none
  | .start _ => none
  | .edge _ _ _ _ _ => none

/-- The records finished, in order. -/
def finished (evs : List (Event ι τ)) : List RecordIndex := evs.filterMap Event.finished?

namespace View

variable {M : TransitionSystem σ ι τ} {A : List ι} {evs : List (Event ι τ)} {w w' : View σ ι τ}

/-- The finishes so far, followed by those of the stack. -/
def foreseen (evs : List (Event ι τ)) (w : View σ ι τ) : List RecordIndex :=
  finished evs ++ w.pending.map Visit.label

theorem foreseen_snoc {e : Event ι τ} (h : e.finished? = none) (w : View σ ι τ) :
    foreseen (evs ++ [e]) w = foreseen evs w := by
  simp [foreseen, finished, h]

theorem foreseen_of_ended (evs : List (Event ι τ)) (pending : w.pending = []) :
    foreseen evs w = finished evs := by
  rw [foreseen, pending, List.map_nil, List.append_nil]

theorem foreseen_of_step {v a : Visit σ ι τ RecordIndex} {rest : List (Visit σ ι τ RecordIndex)}
    (head : w.pending = v :: rest) (label : a.label = v.label) :
    foreseen evs (w.withPending (a :: rest)) = foreseen evs w := by
  simp [foreseen, withPending, head, label]

theorem foreseen_finish {v : Visit σ ι τ RecordIndex} {rest : List (Visit σ ι τ RecordIndex)}
    (head : w.pending = v :: rest) (b : Option (Backtrack ι τ)) :
    foreseen (evs ++ [.finish v.label b]) (w.withPending rest) = foreseen evs w := by
  simp [foreseen, finished, withPending, head, Event.finished?]

/-- What the order of finishes says of the records and edges there are. -/
structure Foretold (evs : List (Event ι τ)) (w : View σ ι τ) : Prop where
  perm : (foreseen evs w).Perm (List.range w.states.length)
  sorted : ∀ k u i x v, .edge k u i x v ∈ evs → k ≠ .back → [v, u].Sublist (foreseen evs w)
  back : ∀ u i x v, .edge .back u i x v ∈ evs → v = u ∨ Ancestor (evs.map .event) v u

namespace Foretold

theorem begin : Foretold ([] : List (Event ι τ)) (begin M) where
  perm := .nil
  sorted := by simp
  back := by simp

theorem carry (f : Foretold evs w) (states : w'.states = w.states)
    (same : foreseen evs w' = foreseen evs w) : Foretold evs w' where
  perm := by
    rw [same, states]
    exact f.perm
  sorted := by
    rw [same]
    exact f.sorted
  back := f.back

/-- An event that is no edge, or an edge as it should be, and leaves the order alone. -/
theorem snoc (f : Foretold evs w) {e : Event ι τ} (states : w'.states = w.states)
    (same : foreseen (evs ++ [e]) w' = foreseen evs w)
    (edge : ∀ k u i x v, e = .edge k u i x v → (k ≠ .back → [v, u].Sublist (foreseen evs w)) ∧
      (k = .back → v = u ∨ Ancestor (evs.map .event) v u)) : Foretold (evs ++ [e]) w' where
  perm := by
    rw [same, states]
    exact f.perm
  sorted k u i x v he hk := by
    rw [same]
    rcases List.mem_append.1 he with he | he
    · exact f.sorted k u i x v he hk
    · exact (edge k u i x v (List.mem_singleton.1 he).symm).1 hk
  back u i x v he := by
    rw [List.map_append]
    rcases List.mem_append.1 he with he | he
    · exact (f.back u i x v he).imp_right Ancestor.append
    · exact ((edge .back u i x v (List.mem_singleton.1 he).symm).2 rfl).imp_right Ancestor.append

/-- A new record comes in front of the stack. -/
theorem enter (f : Foretold evs w) (A : List ι) (t : σ) :
    Foretold evs (w.enter A .depthFirst t) where
  perm := by
    rw [length_enter, List.range_succ]
    apply List.perm_middle.trans
    exact (f.perm.cons _).trans (List.perm_append_singleton _ _).symm
  sorted k u i x v he hk := by
    apply (f.sorted k u i x v he hk).trans
    exact (List.sublist_cons_self _ _).append_left _
  back := f.back

theorem head_sublist (evs : List (Event ι τ)) {v : Visit σ ι τ RecordIndex}
    {rest : List (Visit σ ι τ RecordIndex)} (head : w.pending = v :: rest) {r : RecordIndex}
    (hr : r ∈ finished evs) : [r, v.label].Sublist (foreseen evs w) := by
  rw [foreseen, head, List.map_cons]
  exact (List.singleton_sublist.2 hr).append (List.singleton_sublist.2 List.mem_cons_self)

end Foretold

/-- Nothing is abandoned without a skip. -/
theorem not_abandoned_map_event (evs : List (Event ι τ)) (r : RecordIndex) :
    ¬ Abandoned (evs.map .event) r := by
  intro gone
  have skipped : Report.skippedState r ∈ evs.map .event := gone.subset (by simp)
  simp at skipped

/-- What is met and not gray is finished. -/
theorem Foretold.mem_finished {h : List (Report ι τ)} (f : Foretold evs w)
    (c : Shaded h w.outline w.states.length w.color)
    (k : Stacked h w.outline w.states.length) {v : Visit σ ι τ RecordIndex}
    {rest : List (Visit σ ι τ RecordIndex)} (head : w.pending = v :: rest)
    (begun : v.started = true) {r : RecordIndex} (hr : r < w.states.length)
    (dark : w.color r ≠ .gray) : r ∈ finished evs := by
  have mem : r ∈ foreseen evs w := f.perm.mem_iff.2 (List.mem_range.2 hr)
  rcases List.mem_append.1 mem with done | stacked
  · exact done
  · have cons := outline_of_cons head
    have labels : w.pending.map Visit.label = w.outline.map Prod.fst := by
      simp [outline]
    rw [labels] at stacked
    rw [cons, begun] at k stacked
    have started := k.mem_of_head stacked
    exact absurd ((c.gray_iff r).2 (.inl (by rw [cons, begun]; exact started))) dark

theorem Runs.foretold (run : Runs M A .depthFirst evs w) : Foretold evs w := by
  induction run with
  | begin => exact .begin
  | @event evs w w' e before last f =>
    obtain ⟨k, c⟩ := stacked_of_reached before.reached
    cases last with
    | @known t rest r idle unread met => exact f.snoc rfl (foreseen_snoc rfl _) (by simp)
    | @root t rest idle unread new =>
      have entered := f.enter A t
      exact entered.snoc rfl (foreseen_snoc rfl _) (by simp)
    | @start v rest ready head fresh =>
      refine f.snoc rfl ?_ (by simp)
      rw [foreseen_snoc rfl]
      exact foreseen_of_step head rfl
    | @tree v v' rest i x ready head begun step new =>
      obtain ⟨-, label, -, -, -⟩ := Visit.next_of_some step
      have turned : Foretold evs (w.withPending (v' :: rest)) :=
        f.carry rfl (foreseen_of_step head label)
      have entered := turned.enter A (M.successor x)
      refine entered.snoc rfl (foreseen_snoc rfl _) ?_
      rintro kind u i x r ⟨⟩
      constructor
      · intro _
        have front : [w.states.length, v'.label].Sublist
            (w.states.length :: v'.label :: rest.map Visit.label) :=
          .cons_cons _ (.cons_cons _ (List.nil_sublist _))
        rw [← label]
        exact front.trans (List.sublist_append_right _ _)
      · intro hk
        cases hk
    | @edge v v' rest i x r ready head begun step met =>
      obtain ⟨-, label, -, -, -⟩ := Visit.next_of_some step
      rw [note_depthFirst]
      refine f.snoc rfl ?_ ?_
      · rw [foreseen_snoc rfl]
        exact foreseen_of_step head label
      · rintro kind u i x r' ⟨⟩
        have hr := (List.getElem?_eq_some_iff.1 met).1
        constructor
        · intro hk
          have dark : w.color r ≠ .gray := fun gray => hk (kindOf_eq_back_iff.2 gray)
          exact Foretold.head_sublist evs head (f.mem_finished c k head begun hr dark)
        · intro hk
          rw [outline_of_cons head, begun] at k c
          exact (gray_iff_ancestor k c (not_abandoned_map_event evs r)).1
            (kindOf_eq_back_iff.1 hk)
    | @finish v v' rest ready head begun step =>
      refine f.snoc rfl ?_ (by simp)
      exact foreseen_finish head _

end View

variable {M : TransitionSystem σ ι τ} {A : List ι} {evs : List (Event ι τ)} {w : View σ ι τ}

/-- Down the forest there are paths of the system. -/
theorem Recounts.path_of_ancestor (k : Recounts M A evs w) {a b : RecordIndex}
    (anc : Ancestor (evs.map .event) a b) {s : σ} (hs : w.states[a]? = some s) :
    ∃ t word, w.states[b]? = some t ∧ M.Path A s word t := by
  have edge {u v : RecordIndex} {t : σ} {word : List ι} (parent : Parent (evs.map .event) u v)
      (ht : w.states[u]? = some t) (path : M.Path A s word t) :
      ∃ t word, w.states[v]? = some t ∧ M.Path A s word t := by
    obtain ⟨i, x, hx⟩ := parent
    obtain ⟨t', ht', step, hv⟩ := k.edge_sound (by simpa using hx)
    obtain rfl : t' = t := Option.some.inj (ht'.symm.trans ht)
    obtain ⟨hi, hx⟩ := TransitionSystem.mem_outgoing.1 step
    exact ⟨_, _, hv, path.snoc hi hx⟩
  induction anc with
  | single parent => exact edge parent hs .nil
  | tail _ parent ih =>
    obtain ⟨t, word, ht, path⟩ := ih
    exact edge parent ht path

namespace View

/-- A back edge closes a cycle. -/
theorem Runs.cycle_of_back (run : Runs M A .depthFirst evs w) {u v : RecordIndex} {i : ι} {x : τ}
    (he : .edge .back u i x v ∈ evs) :
    ∃ t word, M.Reachable A t ∧ word ≠ [] ∧ M.Path A t word t := by
  have k := run.recounts
  obtain ⟨t, ht, step, hv⟩ := k.edge_sound he
  obtain ⟨hi, hx⟩ := TransitionSystem.mem_outgoing.1 step
  have down : ∃ word, M.Path A (M.successor x) word t := by
    rcases run.foretold.back u i x v he with rfl | anc
    · obtain rfl : M.successor x = t := Option.some.inj (hv.symm.trans ht)
      exact ⟨[], .nil⟩
    · obtain ⟨t', word, ht', path⟩ := k.path_of_ancestor anc hv
      obtain rfl : t' = t := Option.some.inj (ht'.symm.trans ht)
      exact ⟨word, path⟩
  obtain ⟨word, path⟩ := down
  exact ⟨M.successor x, word ++ [i], k.reachable _ (List.mem_of_getElem? hv), by simp,
    path.snoc hi hx⟩

/-- Without back edges the finishes, read from the end, sort the reachable states. -/
theorem Runs.topologicalOrder (run : Runs M A .depthFirst evs w) (unread : w.unread = [])
    (pending : w.pending = []) (forward : ∀ u i x v, .edge .back u i x v ∉ evs) :
    M.TopologicalOrder A ((finished evs).reverse.filterMap (w.states[·]?)) := by
  have k := run.recounts
  have f := run.foretold
  have all := foreseen_of_ended evs pending
  have mem_finished {r : RecordIndex} {t : σ} (hr : w.states[r]? = some t) : r ∈ finished evs := by
    rw [← all, f.perm.mem_iff, List.mem_range]
    exact (List.getElem?_eq_some_iff.1 hr).1
  have mem_iff (t : σ) : t ∈ (finished evs).reverse.filterMap (w.states[·]?) ↔
      ∃ r : RecordIndex, w.states[r]? = some t := by
    rw [List.mem_filterMap]
    constructor
    · rintro ⟨r, -, hr⟩
      exact ⟨r, hr⟩
    · rintro ⟨r, hr⟩
      exact ⟨r, List.mem_reverse.2 (mem_finished hr), hr⟩
  constructor
  case nodup =>
    apply List.Nodup.filterMap
    · intro r q t hr hq
      exact k.record_unique hr hq
    · rw [List.nodup_reverse, ← all]
      exact f.perm.nodup_iff.2 List.nodup_range
  case mem_iff =>
    intro t
    rw [mem_iff, ← List.mem_iff_getElem?]
    exact ⟨k.reachable t, k.met_of_reachable unread pending⟩
  case sorted =>
    intro t ht i hi x hx
    obtain ⟨r, hr⟩ := (mem_iff t).1 ht
    obtain ⟨c, hc⟩ := List.mem_iff_getElem?.1 (TransitionSystem.mem_outgoing.2 ⟨hi, hx⟩)
    have told := k.follows_told hr (by simp [pending])
    have lt : c < (edgesFrom r evs).length := by
      rw [told.length_eq]
      exact (List.getElem?_eq_some_iff.1 hc).1
    obtain ⟨p, kind, v, hp, he, hv⟩ := told.getElem (List.getElem?_eq_getElem lt)
    obtain rfl : (i, x) = p := Option.some.inj (hc.symm.trans hp)
    have edge : .edge kind r i x v ∈ evs := edge_mem_edgesFrom.1 (he ▸ List.getElem_mem lt)
    have other : kind ≠ .back := by
      rintro rfl
      exact forward r i x v edge
    have before := f.sorted kind r i x v edge other
    rw [all] at before
    have after : [r, v].Sublist (finished evs).reverse := by
      simpa using List.reverse_sublist.2 before
    simpa [hr, hv] using after.filterMap (w.states[·]?)

end View

variable {δ : Type} [DecidableEq σ] [Hashable σ] [Inhabited δ]

/-- A search through finitely many states that is asked for nothing but the next event ends. -/
theorem exhausts {o : Order} {R : Finset σ} (hR : ∀ t, t ∈ R ↔ M.Reachable A t) :
    ∃ (evs : List (Event ι τ)) (s : Search M A o δ),
      (∀ n, (begin M A o δ).play (.replicate (eventCount M A R + n) .next) =
        (evs.map .event ++ .replicate n .ended, s)) ∧
      View.Runs M A o evs s.view ∧ s.view.unread = [] ∧ s.view.pending = [] := by
  obtain ⟨evs, s, hp, -, k, le, ended⟩ :=
    Coherent.play_next (s := begin M A o δ) .begin .begin (eventCount M A R)
  have drained : s.view.unread = [] ∧ s.view.pending = [] := by
    rcases Nat.lt_or_eq_of_le le with lt | eq
    · exact next_eq_none_iff.1 (ended lt)
    · exact k.ended_of_length hR eq
  have length : evs.length = eventCount M A R := k.length_eq hR drained.1 drained.2
  rw [length, Nat.sub_self, List.replicate_zero, List.append_nil] at hp
  have run := runs_of_play hp (by simp)
  rw [events_map_event] at run
  refine ⟨evs, s, ?_, run, drained⟩
  intro n
  rw [List.replicate_add, play_append, hp, play_ended (next_eq_none_iff.2 drained)]

/-- A depth-first search reports a back edge exactly if there is a cycle. Any other edge leads to
a record that finishes before its source. -/
theorem depthFirst_topological {R : Finset σ} (hR : ∀ t, t ∈ R ↔ M.Reachable A t) :
    ∃ (evs : List (Event ι τ)) (s : Search M A .depthFirst δ),
      (∀ n, (begin M A .depthFirst δ).play (.replicate (eventCount M A R + n) .next) =
        (evs.map .event ++ .replicate n .ended, s)) ∧
      ((∃ u i x v, .edge .back u i x v ∈ evs) ↔
        ∃ t word, M.Reachable A t ∧ word ≠ [] ∧ M.Path A t word t) ∧
      (finished evs).Perm (List.range s.recordCount) ∧
      (∀ k u i x v, .edge k u i x v ∈ evs → k ≠ .back → [v, u].Sublist (finished evs)) ∧
      ((∀ u i x v, .edge .back u i x v ∉ evs) →
        M.TopologicalOrder A ((finished evs).reverse.filterMap (s.states[·]?))) := by
  obtain ⟨evs, s, play, run, unread, pending⟩ := exhausts (o := .depthFirst) (δ := δ) hR
  have f := run.foretold
  have all := View.foreseen_of_ended evs pending
  refine ⟨evs, s, play, ⟨?_, ?_⟩, ?_, ?_, ?_⟩
  · rintro ⟨u, i, x, v, he⟩
    exact run.cycle_of_back he
  · rintro ⟨t, word, reachable, nonempty, path⟩
    by_contra none
    have forward : ∀ u i x v, .edge .back u i x v ∉ evs :=
      fun u i x v he => none ⟨u, i, x, v, he⟩
    exact nonempty ((run.topologicalOrder unread pending forward).acyclic reachable path)
  · rw [← all, ← s.length_states]
    exact f.perm
  · rw [← all]
    exact f.sorted
  · exact run.topologicalOrder unread pending

theorem reachable_fork (t : Nat) :
    t ∈ ({0, 1, 2} : Finset Nat) ↔ fork.Reachable ['a', 'b', 'c'] t := by
  have first : fork.Reachable ['a', 'b', 'c'] 0 :=
    TransitionSystem.reachable_of_mem_initial List.mem_cons_self
  have second : fork.Reachable ['a', 'b', 'c'] 1 :=
    first.successor (i := 'a') (x := 0) (by decide) (by decide)
  have third : fork.Reachable ['a', 'b', 'c'] 2 :=
    first.successor (i := 'b') (x := 1) (by decide) (by decide)
  constructor
  · intro ht
    simp only [Finset.mem_insert, Finset.mem_singleton] at ht
    rcases ht with rfl | rfl | rfl
    · exact first
    · exact second
    · exact third
  · rintro ⟨s, hs, word, path⟩
    have target : ∀ x, fork.successor x ∈ ({0, 1, 2} : Finset Nat) := by decide
    cases path with
    | nil =>
      rw [List.mem_singleton.1 hs]
      decide
    | snoc _ _ _ => exact target _

/-- The finishes of a search through a system without cycles sort its states. -/
theorem depthFirst_topological_fork : fork.TopologicalOrder ['a', 'b', 'c'] [0, 2, 1] := by
  obtain ⟨evs, s, play, -, -, -, sorts⟩ := depthFirst_topological (δ := Unit) reachable_fork
  let told : List (Event Char (Fin 4)) :=
    [.initial 0, .start 0, .edge .tree 0 'a' 0 1, .start 1, .finish 1 (some ⟨0, 'a', 0⟩),
      .edge .tree 0 'b' 1 2, .start 2, .edge .cross 2 'a' 2 1, .finish 2 (some ⟨0, 'b', 1⟩),
      .edge .forward 0 'c' 3 2, .finish 0 none]
  have reports : ((begin fork ['a', 'b', 'c'] .depthFirst Unit).play (.replicate 11 .next)).1 =
      told.map .event := by
    cbv
  have states : ((begin fork ['a', 'b', 'c'] .depthFirst Unit).play
      (.replicate 11 .next)).2.states = [0, 1, 2] := by
    cbv
  have count : eventCount fork ['a', 'b', 'c'] {0, 1, 2} = 11 := by decide
  have whole := play 0
  rw [count] at whole
  rw [whole] at reports states
  have same : evs = told := by
    simpa using congrArg events reports
  have order := sorts (by rw [same]; simp [told])
  rw [same, states] at order
  exact order

end Search

end Exploration
