import Exploration.Search
import Exploration.Traversal.Backlog

/-!
# The backlog of a search

A search waits for a start no longer than its traversal: what it enters into its records leaves
the backlog as it is.
-/

namespace Exploration.Search

variable {σ ι τ δ : Type} [DecidableEq σ] [Hashable σ] [Inhabited δ]
  {M : TransitionSystem σ ι τ} {A : List ι} {o : Order}

theorem backlog_edgeTo (s : Search M A o δ) (source : RecordIndex) (target : σ) :
    (s.edgeTo source target).2.2.traversal.backlog = s.traversal.backlog := by
  rw [edgeTo]
  split
  · exact s.traversal.backlog_schedule target s.recordCount
  · dsimp only
    split <;> rfl

theorem backlog_observe (s : Search M A o δ) (e : Exploration.Event σ ι τ) :
    (s.observe e).2.traversal.backlog = s.traversal.backlog := by
  cases e with
  | initial state =>
    rw [observe]
    split
    · rfl
    · exact s.traversal.backlog_schedule state s.recordCount
  | start r state => rfl
  | edge r i x target => exact s.backlog_edgeTo (s.ownIndex r) target
  | finish r state b => rfl

theorem kind_observe_eq_start_iff (s : Search M A o δ) (e : Exploration.Event σ ι τ) :
    (s.observe e).1.kind = .start ↔ e.isStart = true := by
  cases e with
  | initial state =>
    rw [observe]
    split <;> simp [Event.kind, Event.isStart]
  | start r state => simp [observe, Event.kind, Event.isStart]
  | edge r i x target => simp [observe, Event.kind, Event.isStart]
  | finish r state b => simp [observe, Event.kind, Event.isStart]

/-- Every event but a start takes one from the backlog. -/
theorem backlog_next {s u : Search M A o δ} {e : Event ι τ} (h : s.next = (some e, u))
    (he : e.kind ≠ .start) : s.traversal.backlog = u.traversal.backlog + 1 := by
  rw [next] at h
  split at h
  · simp at h
  · next f t hf =>
    simp only [Prod.mk.injEq, Option.some.injEq] at h
    obtain ⟨rfl, rfl⟩ := h
    rw [backlog_observe]
    refine Traversal.backlog_next hf ?_
    cases hs : f.isStart with
    | false => rfl
    | true => exact absurd ((kind_observe_eq_start_iff _ f).2 hs) he

end Exploration.Search
