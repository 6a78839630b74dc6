import Exploration.Proofs.Traversal.History

/-!
# Traversals in step

What a traversal reports depends on the initial states left and on the frontier alone. Two
traversals that agree on these are in step, whatever data their consumers keep, and they stay in
step as long as they are called alike.
-/

namespace Exploration.Traversal

variable {σ ι τ δ ε : Type} {M : TransitionSystem σ ι τ} {A : List ι} {o : Order}

/-- The same is left to report. -/
structure InStep (t : Traversal M A o δ) (u : Traversal M A o ε) : Prop where
  unread : t.unread = u.unread
  frontier : t.frontier = u.frontier

namespace InStep

variable {t : Traversal M A o δ} {u : Traversal M A o ε}

theorem resume (h : t.InStep u) :
    t.resume.1 = u.resume.1 ∧ t.resume.2.InStep u.resume.2 := by
  rw [Traversal.resume, Traversal.resume, h.frontier]
  split
  · exact ⟨rfl, h⟩
  · split
    · split
      · exact ⟨rfl, h.unread, rfl⟩
      · exact ⟨rfl, h.unread, rfl⟩
    · exact ⟨rfl, h.unread, rfl⟩

/-- Records do not matter for what a traversal reports. -/
theorem next (h : t.InStep u) : t.next.1 = u.next.1 ∧ t.next.2.InStep u.next.2 := by
  rw [Traversal.next, Traversal.next, h.unread, h.frontier]
  split
  · split
    · exact ⟨rfl, rfl, rfl⟩
    · exact h.resume
  · exact h.resume

/-- Both schedule a state under the same number. -/
theorem schedule (h : t.InStep u) (count : t.recordCount = u.recordCount) (s : σ) (d : δ) (e : ε) :
    (t.schedule s d).InStep (u.schedule s e) where
  unread := h.unread
  frontier := by rw [frontier_schedule, frontier_schedule, count, h.frontier]

theorem skipLetter (h : t.InStep u) :
    t.skipLetter.1 = u.skipLetter.1 ∧ t.skipLetter.2.InStep u.skipLetter.2 := by
  rw [Traversal.skipLetter, Traversal.skipLetter, h.frontier]
  cases u.frontier.pop? with
  | none => exact ⟨rfl, h⟩
  | some p => exact ⟨rfl, h.unread, rfl⟩

theorem skipState (h : t.InStep u) :
    t.skipState.1 = u.skipState.1 ∧ t.skipState.2.InStep u.skipState.2 := by
  rw [Traversal.skipState, Traversal.skipState, h.frontier]
  cases u.frontier.pop? with
  | none => exact ⟨rfl, h⟩
  | some p => cases o <;> exact ⟨rfl, h.unread, rfl⟩

theorem perform_skipLetter (h : t.InStep u) :
    (t.perform .skipLetter).1 = (u.perform .skipLetter).1 ∧
      (t.perform .skipLetter).2.InStep (u.perform .skipLetter).2 := by
  obtain ⟨result, after⟩ := h.skipLetter
  rw [perform, perform, head?, head?, h.frontier]
  generalize t.skipLetter = x at result after
  generalize u.skipLetter = y at result after
  obtain ⟨result', t'⟩ := x
  obtain ⟨_, u'⟩ := y
  obtain rfl := result
  cases u.frontier.head? <;> cases result' <;> exact ⟨rfl, after⟩

theorem perform_skipState (h : t.InStep u) :
    (t.perform .skipState).1 = (u.perform .skipState).1 ∧
      (t.perform .skipState).2.InStep (u.perform .skipState).2 := by
  obtain ⟨result, after⟩ := h.skipState
  rw [perform, perform, head?, head?, h.frontier]
  generalize t.skipState = x at result after
  generalize u.skipState = y at result after
  obtain ⟨result', t'⟩ := x
  obtain ⟨_, u'⟩ := y
  obtain rfl := result
  cases u.frontier.head? <;> cases result' <;> exact ⟨rfl, after⟩

end InStep

end Exploration.Traversal
