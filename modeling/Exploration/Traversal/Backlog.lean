import Exploration.Traversal

/-!
# The backlog of a traversal

How many events can come before a planned visit has to be started: the unread initial states,
and the transitions and ends of the visits under way. Every event but a start takes one from the
backlog and scheduling leaves it alone, so whoever waits for a start waits only so long, even on
an infinite system.
-/

namespace Exploration.Traversal

variable {σ ι τ δ : Type} {M : TransitionSystem σ ι τ} {A : List ι} {o : Order}

def backlog (t : Traversal M A o δ) : Nat :=
  t.unread.length + t.frontier.weight (Visit.steps M)

/-- A state that was only scheduled adds nothing to the backlog. -/
theorem backlog_schedule (t : Traversal M A o δ) (s : σ) (d : δ) :
    (t.schedule s d).backlog = t.backlog := by
  simp [backlog, Frontier.weight_push]

theorem backlog_resume {t u : Traversal M A o δ} {e : Event σ ι τ}
    (h : t.resume = (some e, u)) (he : e.isStart = false) : t.backlog = u.backlog + 1 := by
  rw [resume] at h
  split at h
  · simp at h
  · next v rest hp =>
    rw [backlog, Frontier.weight_of_pop? hp]
    split at h
    · next hs =>
      split at h
      · next p w hn =>
        obtain ⟨-, rfl⟩ := Prod.mk.inj h
        simp only [backlog, Frontier.weight_pushFront, Visit.steps_of_next hs hn]
        omega
      · next w hn =>
        obtain ⟨-, rfl⟩ := Prod.mk.inj h
        simp only [backlog, Visit.steps_of_none hs hn]
        omega
    · cases h
      cases he

/-- Every event but a start takes one from the backlog. -/
theorem backlog_next {t u : Traversal M A o δ} {e : Event σ ι τ}
    (h : t.next = (some e, u)) (he : e.isStart = false) : t.backlog = u.backlog + 1 := by
  rw [next] at h
  split at h
  · split at h
    · next s rest hu =>
      obtain ⟨-, rfl⟩ := Prod.mk.inj h
      simp only [backlog, hu, List.length_cons]
      omega
    · exact backlog_resume h he
  · exact backlog_resume h he

end Exploration.Traversal
