import Exploration.Proofs.Traversal.Waiting

/-!
# Skips with nothing to skip

A skip has nothing to hit when no visit is pending, that is, when every record scheduled so far was
finished or, depth-first, given up. It then fails and leaves the traversal as it is, so later calls
give what they would have given without it.
-/

namespace Exploration.Traversal

variable {σ ι τ δ : Type} {M : TransitionSystem σ ι τ} {A : List ι} {o : Order}
  {t : Traversal M A o δ} {h : List (Report σ ι τ)}

/-- A skip that fails hands back the traversal as it was. -/
theorem skipLetter_eq_error_iff {e : Error} {u : Traversal M A o δ} :
    t.skipLetter = (.error e, u) ↔ e = .idle ∧ u = t ∧ t.pending = [] := by
  cases hp : t.pending with
  | nil =>
    rw [skipLetter_of_nil hp]
    simp [eq_comm]
  | cons v rest =>
    obtain ⟨u, hu, -⟩ := skipLetter_of_cons hp
    simp [hu]

theorem skipState_eq_error_iff {e : Error} {u : Traversal M A o δ} :
    t.skipState = (.error e, u) ↔ e = .idle ∧ u = t ∧ t.pending = [] := by
  cases hp : t.pending with
  | nil =>
    rw [skipState_of_nil hp]
    simp [eq_comm]
  | cons v rest =>
    obtain ⟨u, hu, -⟩ := skipState_of_cons hp
    simp [hu]

/-- A skip that has nothing to hit is refused. -/
theorem perform_skip_of_nil (empty : t.pending = []) {m : Move σ δ}
    (skip : m = .skipLetter ∨ m = .skipState) : t.perform m = (.refused, t) := by
  rcases skip with rfl | rfl
  · rw [perform, head?_eq, empty, skipLetter_of_nil empty]
    rfl
  · rw [perform, head?_eq, empty, skipState_of_nil empty]
    rfl

/-- It changes nothing that is called later. -/
theorem play_skip_of_nil (empty : t.pending = []) {m : Move σ δ}
    (skip : m = .skipLetter ∨ m = .skipState) (ns : List (Move σ δ)) :
    t.play (m :: ns) = (.refused :: (t.play ns).1, (t.play ns).2) := by
  rw [play, perform_skip_of_nil empty skip]

/-- Nothing is pending when every record scheduled so far has come to its end. -/
theorem Reached.pending_eq_nil_iff (reached : Reached M A o h t) :
    t.pending = [] ↔ ∀ r, .scheduled r ∈ h →
      (∃ s b, .event (.finish r s b) ∈ h) ∨ o = .depthFirst ∧ .skippedState r ∈ h := by
  have k := lined_of_reached reached
  constructor
  · intro empty r scheduled
    by_cases finished : ∃ s b, .event (.finish r s b) ∈ h
    · exact .inl finished
    by_cases given : o = .depthFirst ∧ .skippedState r ∈ h
    · exact .inr given
    have waits : Waiting o h r :=
      ⟨scheduled, fun s b he => finished ⟨s, b, he⟩, fun deep hs => given ⟨deep, hs⟩⟩
    rw [← k.waiting, empty] at waits
    cases waits
  · intro settled
    rw [List.eq_nil_iff_forall_not_mem]
    intro v hv
    obtain ⟨scheduled, unfinished, kept⟩ := (k.waiting v.label).1 (List.mem_map_of_mem hv)
    rcases settled v.label scheduled with ⟨s, b, finished⟩ | ⟨deep, given⟩
    · exact unfinished s b finished
    · exact kept deep given

end Exploration.Traversal
